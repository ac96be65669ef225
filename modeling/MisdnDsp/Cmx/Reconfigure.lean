import MisdnDsp.Cmx.State

/-!
# Conference membership: `dsp_cmx`

`dsp_cmx` reconciles a channel's membership with its `conf_id` and `b_active`.  It removes the
channel from its conference (`dsp_cmx_del_conf_member`, then `dsp_cmx_del_conf` once the chain is
empty), adds it to the conference of its `conf_id` (`dsp_cmx_search_conf`, `dsp_cmx_new_conf`,
`dsp_cmx_add_conf_member`), and after each change recomputes the hardware solution with `dsp_cmx_hfc`
and issues `dsp_cmx_hfc_cross_message` and `dsp_cmx_hfc_conf_message`.  Those two are stubs in the
source; the model records each call as a `Directive`.

The gotos of the source become three functions: `removeFromConf` (lines 537-608, also the target of
`goto remove_from_conf`), `addToConf` (lines 611-715) and `dspCmx`, which dispatches.  A block that
executes `return(r)` reports `some r`.  `vmalloc` may fail: `Vmalloc` says which of the two
allocations of a call succeed.  The free-unit search of `dsp_cmx_hfc` (lines 466-472) runs for `fuel`
rounds, and a call that runs out of rounds reports `none`: it does not return.
-/

namespace MisdnDsp

/-- `EINVAL`. -/
def einval : Int := 22

/-- `ENOMEM`. -/
def enomem : Int := 12

/-- Whether the `vmalloc` of a conference and the `vmalloc` of a member node succeed in one call. -/
structure Vmalloc where
  conf : Bool
  member : Bool
deriving DecidableEq, Repr

/-- A call of the hardware interface. -/
inductive Directive where
  /-- `dsp_cmx_hfc_cross_message(dsp1, dsp2, enable)` -/
  | cross (dsp1 dsp2 : Nat) (enable : Bool)
  /-- `dsp_cmx_hfc_conf_message(dsp, num)` -/
  | conf (dsp : Nat) (num : Int)
deriving DecidableEq, Repr

variable {k : Nat}

/-! ### The list primitives -/

/-- `dsp_cmx_search_conf`. -/
def dspCmxSearchConf (s : Cmx k) (id : Nat) : Option (Conference k) :=
  if id = 0 then none else s.confList.find? (·.id == id)

/-- `dsp_cmx_add_conf_member`; the node's `vmalloc` succeeds when `ok`, at address `s.heap`. -/
def dspCmxAddConfMember (tab : AudioTables) (ok : Bool) (s : Cmx k) (d : Nat) (c : Conference k) :
    Except Int (Cmx k) :=
  let dsp := s.dsps d
  if dsp.member.isSome then .error (-einval)
  else if dsp.conf.isSome then .error (-einval)
  else if !ok then .error (-enomem)
  else
    let mlist := c.mlist ++ [⟨s.heap, d⟩]
    -- `conf->mlist->next && !conf->mlist->next->next`, tested after the append
    let c' := { c with mlist := mlist, confBuff := if mlist.length = 2 then (fun _ => 0) else c.confBuff }
    .ok (({ s with heap := s.heap + 1 }.setDsp d
      { dsp with rxBuff := (fun _ => tab.silence dsp.ulaw), wRx := c.wMax, rRx := c.wMax,
                 conf := some c.addr, member := some s.heap }).setConf c.addr c')

/-- `dsp_cmx_del_conf_member`. -/
def dspCmxDelConfMember (s : Cmx k) (d : Nat) : Except Int (Cmx k) :=
  match s.dspConf d with
  | none => .error (-einval)
  | some c =>
    if c.mlist = [] then .error (-einval)
    else match c.mlist.find? (·.dsp == d) with
      | none => .error (-einval)
      | some m =>
        .ok ((s.setConf c.addr { c with mlist := c.mlist.erase m }).setDsp d
          { s.dsps d with conf := none, member := none })

/-- `dsp_cmx_new_conf`; the `vmalloc` succeeds when `ok`, at address `s.heap`. -/
def dspCmxNewConf (ok : Bool) (s : Cmx k) (id : Nat) : Option (Cmx k × Conference k) :=
  if id = 0 then none
  else if !ok then none
  else
    let c : Conference k :=
      { addr := s.heap, id := id, mlist := [], wMin := 0, wMax := 0, largest := 0
        confBuff := fun _ => 0, solution := -1, hfcId := 0 }
    some ({ s with confList := s.confList ++ [c], heap := s.heap + 1 }, c)

/-- `dsp_cmx_del_conf`. -/
def dspCmxDelConf (s : Cmx k) (c : Conference k) : Except Int (Cmx k) :=
  if c.mlist ≠ [] then .error (-einval)
  else .ok { s with confList := s.confList.filter (·.addr != c.addr) }

/-! ### `dsp_cmx_hfc` -/

/-- The member loop of `dsp_cmx_hfc` (lines 398-418): `none` for `return(-1)`, else `memb`.
`first` is `conf->mlist->dsp->hfc_id`. -/
def hfcMembers (s : Cmx k) (first : Nat) : List ConfMember → Option Nat
  | [] => some 0
  | m :: ms =>
    if (s.dsps m.dsp).txMix then none
    else if (s.dsps m.dsp).hfcId = 0 then none
    else if (s.dsps m.dsp).hfcId ≠ first then none
    else (hfcMembers s first ms).map (· + 1)

/-- The scan of `Conf_list` (lines 436-455): the units of the other conferences whose `hfc_id` is
`conf->hfc_id`, entered in `freeunits` and counted in `unit`; `none` for `return(-1)`. -/
def hfcUnits (c : Conference k) : List (Conference k) → List Nat → Nat → Option (List Nat × Nat)
  | [], freeunits, unit => some (freeunits, unit)
  | t :: ts, freeunits, unit =>
    if t.addr ≠ c.addr ∧ c.hfcId = t.hfcId then
      if t.solution > 8 then none
      else if t.solution > 0 then
        if freeunits.getD (t.solution - 1).toNat 0 ≠ 0 then none
        else hfcUnits c ts (freeunits.set (t.solution - 1).toNat t.id) (unit + 1)
      else hfcUnits c ts freeunits unit
    else hfcUnits c ts freeunits unit

/-- `i = 0; while(i < 8) if (unit > 8) { if (freeunits[i] == 0) return(i+1); i++; }` (lines
466-472), run for `fuel` rounds; `none` when the rounds run out. -/
def hfcFreeUnit (freeunits : List Nat) (unit : Nat) : Nat → Nat → Option Int
  | 0, _ => none
  | fuel + 1, i =>
    if i < 8 then
      if unit > 8 then
        if freeunits.getD i 0 = 0 then some (i + 1) else hfcFreeUnit freeunits unit fuel (i + 1)
      else hfcFreeUnit freeunits unit fuel i
    else some (-1)

/-- `dsp_cmx_hfc`: -1 for software, 0 for a crossconnect, 1-8 for a conference unit. -/
def dspCmxHfc (fuel : Nat) (s : Cmx k) (c : Conference k) : Option Int :=
  match hfcMembers s ((c.mlist.head?.map fun m => (s.dsps m.dsp).hfcId).getD 0) c.mlist with
  | none => some (-1)
  | some memb =>
    if memb < 2 then some (-1)
    else if memb = 2 then some 0
    else match hfcUnits c s.confList (List.replicate 8 0) 0 with
      | none => some (-1)
      | some (freeunits, unit) =>
        if unit > 8 then some (-1)
        else if c.solution > 0 then some c.solution
        else hfcFreeUnit freeunits unit fuel 0

/-! ### The hardware bookkeeping of `dsp_cmx` -/

/-- `member1`, `member2` of `dsp_cmx`: the nodes of a chain of exactly two. -/
def twoMembers : List ConfMember → Option (ConfMember × ConfMember)
  | [m1, m2] => some (m1, m2)
  | _ => none

/-- Lines 566-572 and 663-669: every member leaves its unit, and the conference is software again. -/
def hwConfRelease (c : Conference k) (ds : List Directive) : Conference k × List Directive :=
  ({ c with solution := -1, hfcId := 0 }, ds ++ c.mlist.map fun m => .conf m.dsp 0)

/-- Lines 578-585 and 677-681: the crossconnect of the two members the conference had before the
change is released; `goto only2members` (`-EINVAL`) when it did not have two. -/
def hwCrossRelease (pair : Option (ConfMember × ConfMember)) (c : Conference k) (ds : List Directive) :
    Except Int (Conference k × List Directive) :=
  match pair with
  | none => .error (-einval)
  | some (m1, m2) => .ok ({ c with solution := -1, hfcId := 0 }, ds ++ [.cross m1.dsp m2.dsp false])

/-- Lines 591-600 and 703-712: the two members are crossconnected on chip `hfcId`; `goto
only2members` unless the chain has exactly two nodes. -/
def hwCrossConnect (hfcId : Nat) (c : Conference k) (ds : List Directive) :
    Except Int (Conference k × List Directive) :=
  match c.mlist with
  | [m1, m2] => .ok ({ c with solution := 0, hfcId := hfcId }, ds ++ [.cross m1.dsp m2.dsp true])
  | _ => .error (-einval)

/-- Lines 689-695: every member joins unit `new` of chip `hfcId`. -/
def hwConfConnect (new : Int) (hfcId : Nat) (c : Conference k) (ds : List Directive) :
    Conference k × List Directive :=
  ({ c with solution := new, hfcId := hfcId }, ds ++ c.mlist.map fun m => .conf m.dsp new)

/-- Lines 557-601, after channel `d` (on chip `hfc`) left a conference whose solution was `old`
and whose chain was `pair` if it had two nodes; `dsp_cmx_hfc` now says `new`. -/
def removeHw (d hfc : Nat) (pair : Option (ConfMember × ConfMember)) (old new : Int)
    (c : Conference k) : Conference k × List Directive × Option Int :=
  let ds : List Directive := if new > 0 ∧ old > 0 then [.conf d 0] else []
  let cd := if new ≤ 0 ∧ old > 0 then hwConfRelease c ds else (c, ds)
  match (if new < 0 ∧ old = 0 then hwCrossRelease pair cd.1 cd.2 else .ok cd) with
  | .error e => (cd.1, cd.2, some e)
  | .ok cd =>
    match (if new = 0 then hwCrossConnect hfc cd.1 cd.2 else .ok cd) with
    | .error e => (cd.1, cd.2, some e)
    | .ok cd => (cd.1, cd.2, none)

/-- Lines 658-713, after a channel on chip `hfc` joined a conference whose chain was `pair` if it
had two nodes; the solution is `old` and `dsp_cmx_hfc` says `new`. -/
def addHw (hfc : Nat) (pair : Option (ConfMember × ConfMember)) (old new : Int) (c : Conference k) :
    Conference k × List Directive × Option Int :=
  let cd := if new ≤ 0 ∧ old > 0 then hwConfRelease c [] else (c, [])
  match (if new ≠ 0 ∧ old = 0 then hwCrossRelease pair cd.1 cd.2 else .ok cd) with
  | .error e => (cd.1, cd.2, some e)
  | .ok cd =>
    let cd := if new > 0 then hwConfConnect new hfc cd.1 cd.2 else cd
    match (if new = 0 then hwCrossConnect hfc cd.1 cd.2 else .ok cd) with
    | .error e => (cd.1, cd.2, some e)
    | .ok cd => (cd.1, cd.2, none)

/-! ### `dsp_cmx` -/

/-- What a block of `dsp_cmx` leaves: the state, the directives issued, and `some r` when the block
executed `return(r)`. -/
abbrev Outcome (k : Nat) := Cmx k × List Directive × Option Int

/-- Lines 537-608: channel `d` leaves its conference `c`. -/
def removeFromConf (fuel : Nat) (s : Cmx k) (d : Nat) (c : Conference k) : Option (Outcome k) :=
  match dspCmxDelConfMember s d with
  | .error e => some (s, [], some e)
  | .ok s₁ =>
    match s₁.confAt c.addr with
    | none => none
    | some c₁ =>
      match dspCmxHfc fuel s₁ c₁ with
      | none => none
      | some new =>
        let r := removeHw d (s.dsps d).hfcId (twoMembers c.mlist) c.solution new c₁
        let s₂ := s₁.setConf c.addr r.1
        match r.2.2 with
        | some e => some (s₂, r.2.1, some e)
        | none =>
          if r.1.mlist = [] then
            match dspCmxDelConf s₂ r.1 with
            | .error e => some (s₂, r.2.1, some e)
            | .ok s₃ => some (s₃, r.2.1, none)
          else some (s₂, r.2.1, none)

/-- Lines 611-717: channel `d` joins the conference of its `conf_id`, created if there is none. -/
def addToConf (tab : AudioTables) (fuel : Nat) (ok : Vmalloc) (s : Cmx k) (ds : List Directive)
    (d : Nat) : Option (Cmx k × List Directive × Int) :=
  let dsp := s.dsps d
  if dsp.confId = 0 ∨ dsp.bActive = false then some (s, ds, 0)
  else
    let found := match dspCmxSearchConf s dsp.confId with
      | some c => some (s, c)
      | none => dspCmxNewConf ok.conf s dsp.confId
    match found with
    | none => some (s, ds, -einval)
    | some (s₁, c) =>
      match dspCmxAddConfMember tab ok.member s₁ d c with
      | .error e => some (s₁, ds, e)
      | .ok s₂ =>
        -- `if (!conf->next)`: the conference is the last one of `Conf_list`
        if (confNext c.addr s₂.confList).isNone then some (s₂, ds, 0)
        else
          match s₂.confAt c.addr with
          | none => none
          | some c₂ =>
            match dspCmxHfc fuel s₂ c₂ with
            | none => none
            | some new =>
              let r := addHw dsp.hfcId (twoMembers c.mlist) c₂.solution new c₂
              some (s₂.setConf c.addr r.1, ds ++ r.2.1, r.2.2.getD 0)

/-- `dsp_cmx`: the state, the directives issued and the return value, or `none` when the call does
not return. -/
def dspCmx (tab : AudioTables) (fuel : Nat) (ok : Vmalloc) (s : Cmx k) (d : Nat) :
    Option (Cmx k × List Directive × Int) :=
  let dsp := s.dsps d
  match s.dspConf d with
  | none => if dsp.confId = 0 then some (s, [], 0) else addToConf tab fuel ok s [] d
  | some c =>
    if dsp.confId ≠ 0 ∧ dsp.bActive = true ∧ dsp.confId = c.id then some (s, [], 0)
    else
      match removeFromConf fuel s d c with
      | none => none
      | some (s₁, ds, some r) => some (s₁, ds, r)
      | some (s₁, ds, none) => addToConf tab fuel ok s₁ ds d

end MisdnDsp
