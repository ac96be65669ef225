import MisdnDsp.Cmx.Membership
import MisdnDsp.Cmx.Paths

/-!
# The links of the registry over every run

A channel is in a conference twice over in `dsp_cmx.c`: its `dsp->conf` and `dsp->member` point at
the conference and at a node of its chain, and the node names the channel.  Every entry point keeps
the two views as one relation (`Cmx.Linked`): the nodes of a channel in all of `Conf_list` are
exactly the one its pointers name, or none when `dsp->conf` is `NULL`, and `dsp->member` is set
exactly when `dsp->conf` is.  The conference ids in `Conf_list` stay nonzero and distinct
(`Cmx.UniqueIds`): `dsp_cmx` creates a conference for an id only after `dsp_cmx_search_conf` found
none.

* `reachable_linked`, `reachable_unique_ids`: the two invariants in every reachable state;
* `reachable_member_checks_never_fire`: so the consistency checks of `dsp_cmx_del_conf_member` and
  `dsp_cmx_add_conf_member` never fire, and only a failing `vmalloc` makes a join fail;
* `Trace.sameMode`: no entry point writes a channel's `tx_mix`, `echo`, tone, law or chip, so along
  a run they stay as the layer above set them.
-/

namespace MisdnDsp

variable {k : Nat}

/-- The nodes of channel `d` in the chain of `c`, as (conference, node) addresses. -/
def Conference.nodesOf (c : Conference k) (d : Nat) : List (Nat × Nat) :=
  (c.mlist.filter (·.dsp == d)).map fun m => (c.addr, m.addr)

/-- The nodes of channel `d` in all of `Conf_list`, in chain order. -/
def Cmx.nodesOf (s : Cmx k) (d : Nat) : List (Nat × Nat) := s.confList.flatMap (·.nodesOf d)

/-- `dsp->conf` and `dsp->member` of a channel, as a pair when both are set. -/
def Dsp.link (x : Dsp k) : Option (Nat × Nat) := x.conf.bind fun a => x.member.map (a, ·)

/-- The member chains and the channels' pointers are one relation. -/
structure Cmx.Linked (s : Cmx k) : Prop where
  /-- the nodes of a channel are the one its pointers name, or none -/
  nodes : ∀ d, s.nodesOf d = (s.dsps d).link.toList
  /-- `dsp->member` is set exactly when `dsp->conf` is -/
  member_isSome : ∀ d, (s.dsps d).member.isSome = (s.dsps d).conf.isSome

/-- The conference ids in `Conf_list` are nonzero and distinct. -/
structure Cmx.UniqueIds (s : Cmx k) : Prop where
  nodup : (s.confList.map (·.id)).Nodup
  pos : ∀ c ∈ s.confList, 0 < c.id

/-! ### Nodes, addresses and ids under the writes of the CMX -/

@[simp] theorem Cmx.nodesOf_setDsp (s : Cmx k) (d : Nat) (x : Dsp k) :
    (s.setDsp d x).nodesOf = s.nodesOf := rfl

theorem Dsp.link_eq_none {x : Dsp k} (h : x.conf = none) : x.link = none := by
  simp [Dsp.link, h]

/-- A `flatMap` over conferences at distinct addresses to which only `c` contributes. -/
theorem flatMap_eq_of_only {β : Type} {l : List (Conference k)} {c : Conference k}
    {f : Conference k → List β} (hl : (l.map (·.addr)).Nodup) (hc : c ∈ l)
    (hf : ∀ x ∈ l, x.addr ≠ c.addr → f x = []) : l.flatMap f = f c := by
  induction l with
  | nil => simp at hc
  | cons y ys ih =>
    simp only [List.map_cons, List.nodup_cons, List.mem_map, not_exists, not_and] at hl
    rw [List.flatMap_cons]
    rcases List.mem_cons.1 hc with rfl | hc
    · rw [List.flatMap_eq_nil_iff.2 fun x hx => hf x (.tail _ hx) (hl.1 x hx), List.append_nil]
    · have hy : y.addr ≠ c.addr := fun he => hl.1 c hc he.symm
      rw [hf y (.head _) hy, ih hl.2 hc fun x hx => hf x (.tail _ hx), List.nil_append]

theorem Cmx.setConf_map_id (s : Cmx k) {c c' : Conference k} (h : s.Wf) (hc : c ∈ s.confList)
    (hid : c'.id = c.id) : (s.setConf c.addr c').confList.map (·.id) = s.confList.map (·.id) := by
  rw [Cmx.setConf_confList, List.map_map]
  refine List.map_congr_left fun x hx => ?_
  by_cases hxa : x.addr = c.addr
  · obtain rfl := h.eq_of_addr hx hc hxa
    simp [hid]
  · simp [hxa]

theorem Cmx.setConf_map_addr (s : Cmx k) {c c' : Conference k} (ha : c'.addr = c.addr) :
    (s.setConf c.addr c').confList.map (·.addr) = s.confList.map (·.addr) := by
  rw [Cmx.setConf_confList, List.map_map]
  refine List.map_congr_left fun x _ => ?_
  by_cases hxa : x.addr = c.addr <;> simp [hxa, ha]

/-- Rewriting `c` without changing its nodes of `d` keeps the nodes of `d`. -/
theorem Cmx.Wf.nodesOf_setConf {s : Cmx k} (h : s.Wf) {c c' : Conference k} (hc : c ∈ s.confList)
    {d : Nat} (hd : c'.nodesOf d = c.nodesOf d) : (s.setConf c.addr c').nodesOf d = s.nodesOf d := by
  simp only [Cmx.nodesOf, Cmx.setConf_confList, List.flatMap_map]
  refine List.flatMap_congr fun x hx => ?_
  by_cases hxa : x.addr = c.addr
  · obtain rfl := h.eq_of_addr hx hc hxa
    rw [if_pos rfl, hd]
  · rw [if_neg hxa]

/-- When only `c` has nodes of `d`, they are all the nodes of `d`, also after `c` is rewritten. -/
theorem Cmx.Wf.nodesOf_setConf_only {s : Cmx k} (h : s.Wf) {c c' : Conference k}
    (hc : c ∈ s.confList) (ha : c'.addr = c.addr) {d : Nat}
    (hd : ∀ x ∈ s.confList, x.addr ≠ c.addr → x.nodesOf d = []) :
    (s.setConf c.addr c').nodesOf d = c'.nodesOf d := by
  refine flatMap_eq_of_only (by rw [s.setConf_map_addr ha]; exact h.nodup)
    (by rw [Cmx.setConf_confList]; exact List.mem_map.2 ⟨c, hc, if_pos rfl⟩) fun x hx hxa => ?_
  rw [Cmx.setConf_confList, List.mem_map] at hx
  obtain ⟨y, hy, rfl⟩ := hx
  by_cases hya : y.addr = c.addr
  · rw [if_pos hya] at hxa ⊢; exact absurd rfl hxa
  · rw [if_neg hya] at hxa ⊢; exact hd y hy hya

theorem Cmx.Wf.nodesOf_only {s : Cmx k} (h : s.Wf) {c : Conference k} (hc : c ∈ s.confList) {d : Nat}
    (hd : ∀ x ∈ s.confList, x.addr ≠ c.addr → x.nodesOf d = []) : s.nodesOf d = c.nodesOf d :=
  flatMap_eq_of_only h.nodup hc hd

theorem Conference.nodesOf_fst {c : Conference k} {d : Nat} {p : Nat × Nat} (hp : p ∈ c.nodesOf d) :
    p.1 = c.addr := by
  simp only [Conference.nodesOf, List.mem_map] at hp
  obtain ⟨m, -, rfl⟩ := hp
  rfl

/-- The nodes of `d` of one conference are among all the nodes of `d`. -/
theorem Cmx.nodesOf_sub {s : Cmx k} {c : Conference k} (hc : c ∈ s.confList) {d : Nat} {p : Nat × Nat}
    (hp : p ∈ c.nodesOf d) : p ∈ s.nodesOf d :=
  List.mem_flatMap.2 ⟨c, hc, hp⟩

/-- Only the conference a linked channel points at has nodes of it. -/
theorem Cmx.Linked.nodesOf_eq_nil {s : Cmx k} (h : s.Linked) {d : Nat} {x : Conference k}
    (hx : x ∈ s.confList) (hxa : (s.dsps d).conf ≠ some x.addr) : x.nodesOf d = [] := by
  refine List.eq_nil_iff_forall_not_mem.2 fun p hp => hxa ?_
  have hmem := Cmx.nodesOf_sub hx hp
  rw [h.nodes d] at hmem
  rw [← Conference.nodesOf_fst hp]
  cases hc : (s.dsps d).conf with
  | none => simp [Dsp.link, hc] at hmem
  | some a =>
    cases hm : (s.dsps d).member with
    | none => simp [Dsp.link, hc, hm] at hmem
    | some m => simp [Dsp.link, hc, hm] at hmem; subst hmem; rfl

theorem Cmx.Linked.link_eq {s : Cmx k} (h : s.Linked) {d a : Nat} (ha : (s.dsps d).conf = some a) :
    ∃ m, (s.dsps d).member = some m ∧ (s.dsps d).link = some (a, m) := by
  have hm := h.member_isSome d
  rw [ha, Option.isSome_some, Option.isSome_iff_exists] at hm
  obtain ⟨m, hm⟩ := hm
  exact ⟨m, hm, by simp [Dsp.link, ha, hm]⟩

/-- A `flatMap` over the conferences that a filter keeps, when those it drops contribute nothing. -/
theorem flatMap_filter_of_nil {β : Type} (p : Conference k → Bool) (f : Conference k → List β)
    (l : List (Conference k)) (h : ∀ x ∈ l, p x = false → f x = []) :
    (l.filter p).flatMap f = l.flatMap f := by
  induction l with
  | nil => rfl
  | cons y ys ih =>
    have ih := ih fun x hx => h x (.tail _ hx)
    by_cases hy : p y = true
    · rw [List.filter_cons_of_pos hy, List.flatMap_cons, List.flatMap_cons, ih]
    · rw [List.filter_cons_of_neg hy, List.flatMap_cons, h y (.head _) (by simpa using hy), ih,
        List.nil_append]

/-! ### The writes that keep the links and the ids -/

theorem Cmx.Linked.setDsp {s : Cmx k} (h : s.Linked) {d : Nat} {x : Dsp k}
    (hc : x.conf = (s.dsps d).conf) (hm : x.member = (s.dsps d).member) : (s.setDsp d x).Linked := by
  refine ⟨fun e => ?_, fun e => ?_⟩ <;> by_cases he : e = d
  · subst he; simp [h.nodes e, Dsp.link, hc, hm]
  · simp [h.nodes e, he]
  · subst he; simp [hc, hm, h.member_isSome e]
  · simp [he, h.member_isSome e]

theorem Cmx.Linked.setConf {s : Cmx k} (h : s.Linked) (hw : s.Wf) {c c' : Conference k}
    (hc : c ∈ s.confList) (hs : c.SameChain c') : (s.setConf c.addr c').Linked :=
  ⟨fun e => by
    rw [hw.nodesOf_setConf hc (by simp only [Conference.nodesOf, hs.1, hs.2.2]), h.nodes e]; rfl,
    h.member_isSome⟩

/-- The ids are a property of `Conf_list` alone. -/
theorem Cmx.UniqueIds.of_confList {s s' : Cmx k} (h : s.UniqueIds) (he : s'.confList = s.confList) :
    s'.UniqueIds :=
  ⟨he ▸ h.nodup, he ▸ h.pos⟩

theorem Cmx.UniqueIds.setConf {s : Cmx k} (h : s.UniqueIds) (hw : s.Wf) {c c' : Conference k}
    (hc : c ∈ s.confList) (hid : c'.id = c.id) : (s.setConf c.addr c').UniqueIds := by
  refine ⟨by rw [s.setConf_map_id hw hc hid]; exact h.nodup, fun x hx => ?_⟩
  rw [Cmx.setConf_confList, List.mem_map] at hx
  obtain ⟨y, hy, rfl⟩ := hx
  split
  · rw [hid]; exact h.pos c hc
  · exact h.pos y hy

theorem Cmx.UniqueIds.of_write {s s' : Cmx k} (h : s.UniqueIds) (hw : s.Wf) {c c' : Conference k}
    (hc : c ∈ s.confList) (hlist : s'.confList = (s.setConf c.addr c').confList)
    (hid : c'.id = c.id) : s'.UniqueIds :=
  (h.setConf hw hc hid).of_confList hlist

/-- Writing channel `d` and rewriting its conference `c`: the links hold again if the other channels
keep their nodes in `c`, only `c` has nodes of `d`, and the new `c` has as nodes of `d` the one the
channel's new pointers name. -/
theorem Cmx.Linked.of_write {s s' : Cmx k} (h : s.Linked) (hw : s.Wf) {c c' : Conference k}
    {d : Nat} (hc : c ∈ s.confList) (hlist : s'.confList = (s.setConf c.addr c').confList)
    (ha : c'.addr = c.addr) (hdsps : ∀ e, e ≠ d → s'.dsps e = s.dsps e)
    (hkeep : ∀ e, e ≠ d → c'.nodesOf e = c.nodesOf e)
    (hd : ∀ x ∈ s.confList, x.addr ≠ c.addr → x.nodesOf d = [])
    (hnew : c'.nodesOf d = (s'.dsps d).link.toList)
    (hmem : (s'.dsps d).member.isSome = (s'.dsps d).conf.isSome) : s'.Linked := by
  have hn : ∀ e, s'.nodesOf e = (s.setConf c.addr c').nodesOf e := fun e => by
    simp only [Cmx.nodesOf, hlist]
  refine ⟨fun e => ?_, fun e => ?_⟩ <;> by_cases he : e = d
  · subst he; rw [hn, hw.nodesOf_setConf_only hc ha hd, hnew]
  · rw [hn, hw.nodesOf_setConf hc (hkeep e he), h.nodes e, hdsps e he]
  · subst he; exact hmem
  · rw [hdsps e he]; exact h.member_isSome e

/-! ### The list primitives of `dsp_cmx` -/

/-- Unlinking the node of `d` leaves `d` with no node and the other channels with theirs. -/
theorem dspCmxDelConfMember_links {s s₁ : Cmx k} {d : Nat} (hw : s.Wf) (h : s.Linked)
    (hu : s.UniqueIds) (hd : dspCmxDelConfMember s d = .ok s₁) : s₁.Linked ∧ s₁.UniqueIds := by
  unfold dspCmxDelConfMember at hd
  split at hd
  · cases hd
  rename_i c hc
  split_ifs at hd
  split at hd
  · cases hd
  rename_i m hfm
  cases hd
  have hmd : m.dsp = d := by simpa using List.find?_some hfm
  have hcm := Cmx.dspConf_mem hc
  have hconf := Cmx.dspConf_conf hc
  have honly : ∀ x ∈ s.confList, x.addr ≠ c.addr → x.nodesOf d = [] := fun x hx hxa =>
    h.nodesOf_eq_nil hx (by rw [hconf]; exact fun he => hxa (Option.some.inj he).symm)
  -- the chain of `c` holds one node of `d`, the one the search found
  have hone : c.mlist.filter (·.dsp == d) = [m] := by
    obtain ⟨a, ha, hl⟩ := h.link_eq hconf
    have e := h.nodes d
    rw [hw.nodesOf_only hcm honly, hl] at e
    obtain ⟨m', hm'⟩ := List.length_eq_one.1
      (by simpa [Conference.nodesOf] using congrArg List.length e)
    have : m ∈ c.mlist.filter (·.dsp == d) :=
      List.mem_filter.2 ⟨List.mem_of_find?_eq_some hfm, by simpa using hmd⟩
    rw [hm', List.mem_singleton] at this
    rw [hm', this]
  refine ⟨h.of_write hw hcm rfl rfl (fun e he => by simp [he]) (fun e he => ?_) honly ?_ (by simp),
    hu.of_write hw hcm rfl rfl⟩
  · simp only [Conference.nodesOf, ← List.erase_filter]
    rw [List.erase_of_not_mem (by simp [hmd, Ne.symm he])]
  · simp [Conference.nodesOf, ← List.erase_filter, hone, Dsp.link]

/-- Linking a node of a channel that is in no conference into `c`. -/
theorem dspCmxAddConfMember_links {tab : AudioTables} {ok : Bool} {s s₂ : Cmx k} {d : Nat}
    {c : Conference k} (hw : s.Wf) (h : s.Linked) (hu : s.UniqueIds) (hc : c ∈ s.confList)
    (ha : dspCmxAddConfMember tab ok s d c = .ok s₂) : s₂.Linked ∧ s₂.UniqueIds := by
  unfold dspCmxAddConfMember at ha
  dsimp only at ha
  by_cases h₁ : (s.dsps d).member.isSome
  · simp [h₁] at ha
  by_cases h₂ : (s.dsps d).conf.isSome
  · simp [h₁, h₂] at ha
  by_cases h₃ : ok
  swap
  · simp [h₁, h₂, h₃] at ha
  rw [if_neg h₁, if_neg h₂, if_neg (by simpa using h₃), Except.ok.injEq] at ha
  subst ha
  have hnone : (s.dsps d).conf = none := by simpa using h₂
  have honly : ∀ x ∈ s.confList, x.nodesOf d = [] := fun x hx =>
    h.nodesOf_eq_nil hx (by rw [hnone]; exact Option.noConfusion)
  have hcd : c.mlist.filter (·.dsp == d) = [] := by
    simpa [Conference.nodesOf] using honly c hc
  refine ⟨h.of_write hw hc rfl rfl (fun e he => by simp [he]) (fun e he => ?_)
    (fun x hx _ => honly x hx) ?_ (by simp),
    hu.of_write hw hc rfl rfl⟩
  · simp [Conference.nodesOf, List.filter_append, Ne.symm he]
  · simp [Conference.nodesOf, List.filter_append, hcd, Dsp.link]

theorem dspCmxNewConf_links {ok : Bool} {s s₁ : Cmx k} {id : Nat} {c : Conference k}
    (h : s.Linked) (hu : s.UniqueIds) (hs : dspCmxSearchConf s id = none)
    (hn : dspCmxNewConf ok s id = some (s₁, c)) : s₁.Linked ∧ s₁.UniqueIds := by
  unfold dspCmxNewConf at hn
  split_ifs at hn with h₀
  cases hn
  have hfree : ∀ x ∈ s.confList, x.id ≠ id := fun x hx hxid => by
    simp only [dspCmxSearchConf, if_neg h₀, List.find?_eq_none] at hs
    exact hs x hx (by simp [hxid])
  refine ⟨⟨fun e => ?_, h.member_isSome⟩, ⟨?_, fun x hx => ?_⟩⟩
  · simp [Cmx.nodesOf, Conference.nodesOf, ← h.nodes e]
  · simpa [List.nodup_append] using ⟨hu.nodup, fun x hx => hfree x hx⟩
  · simp only [List.mem_append, List.mem_singleton] at hx
    rcases hx with hx | rfl
    · exact hu.pos x hx
    · exact Nat.pos_of_ne_zero h₀

theorem dspCmxDelConf_links {s s₁ : Cmx k} {c : Conference k} (hw : s.Wf) (h : s.Linked)
    (hu : s.UniqueIds) (hc : c ∈ s.confList) (hd : dspCmxDelConf s c = .ok s₁) :
    s₁.Linked ∧ s₁.UniqueIds := by
  unfold dspCmxDelConf at hd
  split_ifs at hd with hm
  cases hd
  have hnil : ∀ x ∈ s.confList, (x.addr != c.addr) = false → ∀ e, x.nodesOf e = [] := by
    intro x hx hxa e
    obtain rfl := hw.eq_of_addr hx hc (by simpa using hxa)
    simp [Conference.nodesOf, not_not.1 hm]
  refine ⟨⟨fun e => ?_, h.member_isSome⟩,
    ⟨((List.filter_sublist _).map _).nodup hu.nodup, fun x hx => hu.pos x (List.mem_filter.1 hx).1⟩⟩
  rw [← h.nodes e]
  exact flatMap_filter_of_nil _ _ _ fun x hx hxa => hnil x hx hxa e

/-! ### `dsp_cmx` -/

theorem Cmx.Linked.setConf_of_confAt {s : Cmx k} (h : s.Linked) (hw : s.Wf) {a : Nat}
    {c₁ c' : Conference k} (hc : s.confAt a = some c₁) (hs : c₁.SameChain c') :
    (s.setConf a c').Linked := by
  rw [← Cmx.confAt_addr hc]
  exact h.setConf hw (Cmx.confAt_mem hc) hs

theorem Cmx.UniqueIds.setConf_of_confAt {s : Cmx k} (h : s.UniqueIds) (hw : s.Wf) {a : Nat}
    {c₁ c' : Conference k} (hc : s.confAt a = some c₁) (hid : c'.id = c₁.id) :
    (s.setConf a c').UniqueIds := by
  rw [← Cmx.confAt_addr hc]
  exact h.setConf hw (Cmx.confAt_mem hc) hid

theorem Cmx.mem_setConf_of_confAt {s : Cmx k} {a : Nat} {c₁ : Conference k} (hc : s.confAt a = some c₁)
    (c' : Conference k) : c' ∈ (s.setConf a c').confList := by
  rw [Cmx.setConf_confList, List.mem_map]
  exact ⟨c₁, Cmx.confAt_mem hc, if_pos (Cmx.confAt_addr hc)⟩

/-- Lines 537-608 keep the links and the ids. -/
theorem removeFromConf_links {fuel : Nat} {s : Cmx k} (hw : s.Wf) (h : s.Linked)
    (hu : s.UniqueIds) {d : Nat} {c : Conference k} (hc : s.dspConf d = some c) {s' : Cmx k}
    {ds : List Directive} {r : Option Int} (hr : removeFromConf fuel s d c = some (s', ds, r)) :
    s'.Linked ∧ s'.UniqueIds := by
  rcases removeFromConf_cases hr with ⟨-, -, rfl, -, -⟩ | ⟨s₁, c₁, new, R, h₁, hc₁, -, rfl, -, hs⟩
  · exact ⟨h, hu⟩
  have hw₁ := (dspCmxDelConfMember_wf hw hc h₁).1
  obtain ⟨hl₁, hu₁⟩ := dspCmxDelConfMember_links hw h hu h₁
  have hsame := (removeHw_spec d (s.dsps d).hfcId (twoMembers c.mlist) c.solution new c₁).1
  have hl₂ := hl₁.setConf_of_confAt hw₁ hc₁ hsame
  have hu₂ := hu₁.setConf_of_confAt hw₁ hc₁ hsame.2.1
  rcases hs with ⟨rfl, -⟩ | ⟨-, h₃, -⟩
  · exact ⟨hl₂, hu₂⟩
  · exact dspCmxDelConf_links (hw₁.setConf_of_confAt hc₁ hsame) hl₂ hu₂
      (Cmx.mem_setConf_of_confAt hc₁ _) h₃

/-- Lines 611-717 keep the links and the ids. -/
theorem addToConf_links {tab : AudioTables} {fuel : Nat} {ok : Vmalloc} {s : Cmx k} (hw : s.Wf)
    (h : s.Linked) (hu : s.UniqueIds) {ds : List Directive} {d : Nat} {s' : Cmx k}
    {ds' : List Directive} {r : Int} (hr : addToConf tab fuel ok s ds d = some (s', ds', r)) :
    s'.Linked ∧ s'.UniqueIds := by
  rcases addToConf_cases hr with ⟨rfl, -, -⟩ | ⟨-, s₁, c, hfound, hrest⟩
  · exact ⟨h, hu⟩
  -- the conference of `conf_id`, found or created
  obtain ⟨hw₁, hc₁, hl₁, hu₁⟩ : s₁.Wf ∧ c ∈ s₁.confList ∧ s₁.Linked ∧ s₁.UniqueIds := by
    rcases hfound with ⟨hs, rfl⟩ | ⟨hs, hn⟩
    · exact ⟨hw, (dspCmxSearchConf_some hs).1, h, hu⟩
    · exact ⟨(dspCmxNewConf_wf hw hn).1, (dspCmxNewConf_wf hw hn).2.1, dspCmxNewConf_links h hu hs hn⟩
  rcases hrest with ⟨rfl, -, -⟩ | ⟨s₂, h₂, hrest⟩
  · exact ⟨hl₁, hu₁⟩
  obtain ⟨hl₂, hu₂⟩ := dspCmxAddConfMember_links hw₁ hl₁ hu₁ hc₁ h₂
  rcases hrest with ⟨-, rfl, -, -⟩ | ⟨c₂, new, R, hc₂, -, rfl, rfl, -, -⟩
  · exact ⟨hl₂, hu₂⟩
  have hw₂ := (dspCmxAddConfMember_wf hw₁ hc₁ h₂).1
  have hsame := addHw_sameChain (s.dsps d).hfcId (twoMembers c.mlist) c₂.solution new c₂
  exact ⟨hl₂.setConf_of_confAt hw₂ hc₂ hsame, hu₂.setConf_of_confAt hw₂ hc₂ hsame.2.1⟩

/-- `dsp_cmx` keeps the links and the ids, whatever it returns. -/
theorem dspCmx_links {tab : AudioTables} {fuel : Nat} {ok : Vmalloc} {s : Cmx k} (hw : s.Wf)
    (h : s.Linked) (hu : s.UniqueIds) {d : Nat} {s' : Cmx k} {ds : List Directive} {r : Int}
    (hr : dspCmx tab fuel ok s d = some (s', ds, r)) : s'.Linked ∧ s'.UniqueIds := by
  rcases dspCmx_cases hr with ⟨rfl, -⟩ | ⟨-, ha⟩ | ⟨c, hc, -, hrm | ⟨s₁, ds₁, hrm, ha⟩⟩
  · exact ⟨h, hu⟩
  · exact addToConf_links hw h hu ha
  · exact removeFromConf_links hw h hu hc hrm
  · obtain ⟨hl₁, hu₁⟩ := removeFromConf_links hw h hu hc hrm
    exact addToConf_links (removeFromConf_wf hw hc hrm).1 hl₁ hu₁ ha

/-! ### The data paths and every run -/

/-- `dsp_cmx_receive` writes channel `d` but not its pointers into the registry, and rewrites at
most the conference of `d`, keeping its address, id and chain. -/
theorem dspCmxReceive_shape {tab : AudioTables} {s s' : Cmx k} {d : Nat} {data : List UInt8}
    (h : dspCmxReceive tab s d data = s') :
    ∃ x : Dsp k, (s' = s.setDsp d x ∨
        ∃ c c', s.dspConf d = some c ∧ s' = (s.setConf c.addr c').setDsp d x ∧ c.SameChain c') ∧
      x.conf = (s.dsps d).conf ∧ x.member = (s.dsps d).member := by
  have hr : (raiseLargest (s.dsps d) data.length).conf = (s.dsps d).conf ∧
      (raiseLargest (s.dsps d) data.length).member = (s.dsps d).member := by
    rw [raiseLargest_eq]; exact ⟨rfl, rfl⟩
  unfold dspCmxReceive at h
  dsimp only at h
  split at h
  · exact ⟨_, .inl (h.symm.trans (Cmx.setDsp_self s d).symm), rfl, rfl⟩
  split at h
  · exact ⟨_, .inl h.symm, hr⟩
  split at h
  · rcases (ite_eq_or_eq _ _ _).imp h.symm.trans h.symm.trans with e | e <;> exact ⟨_, .inl e, hr⟩
  · rename_i c hc
    rcases (ite_eq_or_eq _ _ _).imp h.symm.trans h.symm.trans with e | e <;>
      exact ⟨_, .inr ⟨c, _, hc, e, rfl, rfl, rfl⟩, hr⟩

theorem dspCmxTransmit_member (dsp : Dsp k) (data : List UInt8) :
    (dspCmxTransmit dsp data).member = dsp.member := by
  unfold dspCmxTransmit; split <;> rfl

theorem step_links {tab : AudioTables} {toneCopy : Nat → List UInt8} {fuel : Nat} {s s' : Cmx k}
    {op : Op} {ds : List Directive} (hw : s.Wf) (h : s.Linked) (hu : s.UniqueIds)
    {r : Reply} (hs : step tab toneCopy fuel s op = some (s', ds, r)) : s'.Linked ∧ s'.UniqueIds := by
  cases op with
  | receive d data =>
    cases hs
    obtain ⟨x, e | ⟨c, c', hc, e, hsame⟩, hxc, hxm⟩ := dspCmxReceive_shape (s := s) (d := d) rfl
    · rw [e]; exact ⟨h.setDsp hxc hxm, hu.of_confList rfl⟩
    · rw [e]
      have hcm := Cmx.dspConf_mem hc
      exact ⟨(h.setConf hw hcm hsame).setDsp hxc hxm, (hu.setConf hw hcm hsame.2.1).of_confList rfl⟩
  | send d len =>
    cases hs
    obtain ⟨_, _, _, e⟩ := dspCmxSend_state tab toneCopy s d len
    rw [e]; exact ⟨h.setDsp rfl rfl, hu.of_confList rfl⟩
  | transmit d data =>
    cases hs
    exact ⟨h.setDsp (dspCmxTransmit_conf _ _) (dspCmxTransmit_member _ _), hu.of_confList rfl⟩
  | cmx d confId bActive ok =>
    simp only [step, Option.map_eq_some'] at hs
    obtain ⟨⟨s₁, ds₁, r₁⟩, hr, he⟩ := hs
    cases he
    refine dspCmx_links ?_ ?_ ?_ hr
    exacts [hw.setDsp rfl, h.setDsp rfl rfl, hu.of_confList rfl]

/-- `dsp_cmx_receive` writes only `largest`, `rx_buff` and `W_rx` of the channel. -/
theorem dspCmxReceive_dsp (tab : AudioTables) (s : Cmx k) (d : Nat) (data : List UInt8) :
    ∃ L rx w, (dspCmxReceive tab s d data).dsps d =
      { s.dsps d with largest := L, rxBuff := rx, wRx := w } := by
  generalize h : dspCmxReceive tab s d data = s'
  unfold dspCmxReceive at h
  dsimp only at h
  split at h
  · subst h; exact ⟨_, _, _, rfl⟩
  split at h
  · subst h; simp only [Cmx.setDsp_dsps, if_true, raiseLargest_eq]; exact ⟨_, _, _, rfl⟩
  split at h <;> rcases (ite_eq_or_eq _ _ _).imp h.symm.trans h.symm.trans with e | e <;> subst e <;>
    simp only [Cmx.setDsp_dsps, if_true, raiseLargest_eq] <;> exact ⟨_, _, _, rfl⟩

/-- `y` keeps the fields of `x` that only the layer above writes: `tx_mix`, `echo`, the tone, the
law and the chip. -/
def Dsp.SameMode (x y : Dsp k) : Prop :=
  y.txMix = x.txMix ∧ y.echo = x.echo ∧ y.tone = x.tone ∧ y.ulaw = x.ulaw ∧ y.hfcId = x.hfcId

theorem Dsp.SameMode.trans {x y z : Dsp k} (h₁ : x.SameMode y) (h₂ : y.SameMode z) : x.SameMode z :=
  let ⟨m₁, e₁, t₁, u₁, h₁⟩ := h₁
  let ⟨m₂, e₂, t₂, u₂, h₂⟩ := h₂
  ⟨m₂.trans m₁, e₂.trans e₁, t₂.trans t₁, u₂.trans u₁, h₂.trans h₁⟩

/-- What `dsp_cmx` keeps of a channel includes its mode. -/
theorem Dsp.SameData.sameMode {x y : Dsp k} (h : x.SameData y) : x.SameMode y :=
  let ⟨_, _, _, _, hh, hm, _, _, he, ht, hu⟩ := h
  ⟨hm, he, ht, hu, hh⟩

/-- No entry point writes a channel's `tx_mix`, `echo`, tone, law or chip. -/
theorem step_sameMode {tab : AudioTables} {toneCopy : Nat → List UInt8} {fuel : Nat} {s s' : Cmx k}
    {op : Op} {ds : List Directive} {r : Reply} (hs : step tab toneCopy fuel s op = some (s', ds, r))
    (e : Nat) : (s.dsps e).SameMode (s'.dsps e) := by
  cases op with
  | receive d data =>
    cases hs
    by_cases he : e = d
    · obtain ⟨L, rx, w, hx⟩ := dspCmxReceive_dsp tab s d data
      subst he
      simp [Dsp.SameMode, hx]
    · obtain ⟨x, h | ⟨c, c', -, h, -⟩, -⟩ :=
        dspCmxReceive_shape (rfl : dspCmxReceive tab s d data = _) <;> simp [Dsp.SameMode, h, he]
  | send d len =>
    cases hs
    obtain ⟨_, _, _, h⟩ := dspCmxSend_state tab toneCopy s d len
    by_cases he : e = d <;> simp [Dsp.SameMode, h, he]
  | transmit d data =>
    cases hs
    by_cases he : e = d
    · subst he; simp only [Cmx.setDsp_dsps, if_true, Dsp.SameMode]
      unfold dspCmxTransmit; split <;> exact ⟨rfl, rfl, rfl, rfl, rfl⟩
    · simp [Dsp.SameMode, he]
  | cmx d confId bActive ok =>
    simp only [step, Option.map_eq_some'] at hs
    obtain ⟨⟨s₁, ds₁, r₁⟩, hr, he⟩ := hs
    cases he
    -- setting `conf_id` and `b_active` keeps the mode, and so does `dsp_cmx`
    have h₀ : (s.dsps e).SameMode
        ((s.setDsp d { s.dsps d with confId := confId, bActive := bActive }).dsps e) := by
      by_cases hed : e = d <;> simp [Dsp.SameMode, hed]
    exact h₀.trans ((dspCmx_edit hr).dsps e).sameMode

/-- Along every run each channel keeps the `tx_mix`, `echo`, tone, law and chip it started with:
only the layer above, between the calls, could change them. -/
theorem Trace.sameMode {tab : AudioTables} {toneCopy : Nat → List UInt8} {s₀ s : Cmx k}
    {ops : List Op} {ds : List Directive} (tr : Trace tab toneCopy s₀ ops ds s) (e : Nat) :
    (s₀.dsps e).SameMode (s.dsps e) := by
  induction tr with
  | nil => exact ⟨rfl, rfl, rfl, rfl, rfl⟩
  | snoc _ hs ih => exact ih.trans (step_sameMode hs e)

theorem Cmx.Initial.links {s : Cmx k} (h : s.Initial) : s.Linked ∧ s.UniqueIds :=
  ⟨⟨fun d => by simp [Cmx.nodesOf, h.1, Dsp.link, (h.2 d).1],
      fun d => by simp [(h.2 d).1, (h.2 d).2]⟩, ⟨by simp [h.1], by simp [h.1]⟩⟩

theorem Trace.links {tab : AudioTables} {toneCopy : Nat → List UInt8} {s₀ s : Cmx k} {ops : List Op}
    {ds : List Directive} (h₀ : s₀.Wf) (hl : s₀.Linked) (hu : s₀.UniqueIds)
    (ht : Trace tab toneCopy s₀ ops ds s) : s.Linked ∧ s.UniqueIds := by
  induction ht with
  | nil => exact ⟨hl, hu⟩
  | snoc ht' hs ih => exact step_links (ht'.wf h₀) ih.1 ih.2 hs

theorem Reachable.links {tab : AudioTables} {toneCopy : Nat → List UInt8} {s : Cmx k}
    (h : Reachable tab toneCopy s) : s.Linked ∧ s.UniqueIds := by
  obtain ⟨s₀, ops, ds, hi, ht⟩ := h
  exact ht.links hi.wf hi.links.1 hi.links.2

/-! ### In every reachable state -/

/-- The state after channel 0 of a fresh registry joins conference 1 is reachable. -/
theorem joinedOne_reachable : Reachable tab₀ noTone joinedOne := by
  have h : step tab₀ noTone 0 (Cmx.zero fun _ => 0 : Cmx 13) (.cmx 0 1 true ⟨true, true⟩) =
      some (joinedOne, [], .ret 0) := rfl
  exact ⟨_, _, _, Cmx.zero_initial _, Trace.snoc Trace.nil h⟩

/-- In every reachable state the nodes of a channel in all of `Conf_list` are the one node its
`dsp->conf` and `dsp->member` name, or none when it is in no conference, and `dsp->member` is set
exactly when `dsp->conf` is: no channel is in two chains or twice in one, and no node outlives its
channel's membership. -/
theorem reachable_linked {tab : AudioTables} {toneCopy : Nat → List UInt8} {s : Cmx k}
    (hs : Reachable tab toneCopy s) (d : Nat) :
    s.nodesOf d = (s.dsps d).link.toList ∧ (s.dsps d).member.isSome = (s.dsps d).conf.isSome :=
  ⟨hs.links.1.nodes d, hs.links.1.member_isSome d⟩

/-- Channel 0 after joining conference 1: its one node, at address 2, in the conference at 1. -/
theorem reachable_linked_joinedOne :
    Reachable tab₀ noTone joinedOne ∧
      (joinedOne.nodesOf 0 = (joinedOne.dsps 0).link.toList ∧
        (joinedOne.dsps 0).member.isSome = (joinedOne.dsps 0).conf.isSome) :=
  ⟨joinedOne_reachable, reachable_linked joinedOne_reachable 0⟩

/-- In every reachable state the conference ids in `Conf_list` are nonzero and distinct. -/
theorem reachable_unique_ids {tab : AudioTables} {toneCopy : Nat → List UInt8} {s : Cmx k}
    (hs : Reachable tab toneCopy s) :
    (s.confList.map (·.id)).Nodup ∧ ∀ c ∈ s.confList, 0 < c.id :=
  ⟨hs.links.2.nodup, hs.links.2.pos⟩

theorem reachable_unique_ids_joinedOne :
    Reachable tab₀ noTone joinedOne ∧
      ((joinedOne.confList.map (·.id)).Nodup ∧ ∀ c ∈ joinedOne.confList, 0 < c.id) :=
  ⟨joinedOne_reachable, reachable_unique_ids joinedOne_reachable⟩

/-- In a well-formed registry a channel in a conference is found in the chain of its conference. -/
theorem Cmx.Wf.delConfMember_ok {s : Cmx k} (hw : s.Wf) {d : Nat} (hc : (s.dsps d).conf.isSome) :
    ∃ s₁, dspCmxDelConfMember s d = .ok s₁ := by
  obtain ⟨a, ha⟩ := Option.isSome_iff_exists.1 hc
  obtain ⟨c, hcm, rfl, m, hm, hmd⟩ := hw.conf_mem d a ha
  have hdc : s.dspConf d = some c := by simp [Cmx.dspConf, ha, hw.confAt_eq hcm]
  obtain ⟨m', hm'⟩ : ∃ m', c.mlist.find? (·.dsp == d) = some m' :=
    Option.isSome_iff_exists.1 (List.find?_isSome.2 ⟨m, hm, by simpa using hmd⟩)
  simp [dspCmxDelConfMember, hdc, List.ne_nil_of_mem hm, hm']

/-- With the links, a channel in no conference has no node either, so linking it fails only for lack
of memory. -/
theorem Cmx.Linked.addConfMember_error {s : Cmx k} (h : s.Linked) {d : Nat}
    (hn : (s.dsps d).conf = none) {tab : AudioTables} {ok : Bool} {c : Conference k} {e : Int}
    (he : dspCmxAddConfMember tab ok s d c = .error e) : e = -enomem := by
  have hm : (s.dsps d).member = none := by simpa [hn] using h.member_isSome d
  cases ok <;> simp [dspCmxAddConfMember, hm, hn] at he
  exact he.symm

/-- In every reachable state the consistency checks of `dsp_cmx_del_conf_member` (lines 285-305) and
`dsp_cmx_add_conf_member` (lines 231-241) never fire: a channel in a conference is always found in
its chain and unlinked, and linking a channel that is in no conference fails only when the `vmalloc`
of its node fails. -/
theorem reachable_member_checks_never_fire {tab : AudioTables} {toneCopy : Nat → List UInt8}
    {s : Cmx k} (hs : Reachable tab toneCopy s) (d : Nat) :
    ((s.dsps d).conf.isSome → ∃ s₁, dspCmxDelConfMember s d = .ok s₁) ∧
      ((s.dsps d).conf = none → ∀ (tab' : AudioTables) (ok : Bool) (c : Conference k) (e : Int),
        dspCmxAddConfMember tab' ok s d c = .error e → e = -enomem) :=
  ⟨fun hc => hs.wf.delConfMember_ok hc, fun hn _ _ _ _ he => hs.links.1.addConfMember_error hn he⟩

theorem reachable_member_checks_never_fire_joinedOne :
    Reachable tab₀ noTone joinedOne ∧
      (((joinedOne.dsps 0).conf.isSome → ∃ s₁, dspCmxDelConfMember joinedOne 0 = .ok s₁) ∧
        ((joinedOne.dsps 0).conf = none → ∀ (tab' : AudioTables) (ok : Bool) (c : Conference 13)
          (e : Int), dspCmxAddConfMember tab' ok joinedOne 0 c = .error e → e = -enomem)) :=
  ⟨joinedOne_reachable, reachable_member_checks_never_fire joinedOne_reachable 0⟩

end MisdnDsp
