import MisdnDsp.Cmx.Ring

/-!
# The CMX data model

The structures of `dsp.h` as `dsp_cmx.c` uses them: the channel object `dsp_t`, the conference
`conference_t` with its chain of `conf_member_t` nodes, and the global chain `Conf_list`.

Pointers are addresses.  Conferences and member nodes get theirs from the allocator (`Cmx.heap`, the
next address `vmalloc` hands out), channels are named by a handle of their own.  A pointer that is
followed is looked up in `Conf_list`; a dangling `dsp->conf` cannot occur in a reachable state, and
the model reads it as `NULL`.

The companding tables and silence bytes of `dsp_audio.c` are not among the sources; they enter as
the parameter `AudioTables`.
-/

namespace MisdnDsp

/-- The lookup tables of `dsp_audio.c`: `dsp_audio_alaw_to_s32`, `dsp_audio_ulaw_to_s32`,
`dsp_audio_s16_to_alaw`, `dsp_audio_s16_to_ulaw` (indexed by `sample & 0xffff`), and the two silence
bytes. -/
structure AudioTables where
  alawToS32 : UInt8 → Int
  ulawToS32 : UInt8 → Int
  s16ToAlaw : Nat → UInt8
  s16ToUlaw : Nat → UInt8
  alawsilence : UInt8
  ulawsilence : UInt8

/-- `(ulaw)?dsp_audio_ulaw_to_s32:dsp_audio_alaw_to_s32`. -/
def AudioTables.decodeLaw (tab : AudioTables) (ulaw : Bool) : UInt8 → Int :=
  if ulaw then tab.ulawToS32 else tab.alawToS32

/-- `(ulaw)?dsp_audio_s16_to_ulaw:dsp_audio_s16_to_alaw`. -/
def AudioTables.encodeLaw (tab : AudioTables) (ulaw : Bool) : Nat → UInt8 :=
  if ulaw then tab.s16ToUlaw else tab.s16ToAlaw

/-- `(ulaw)?ulawsilence:alawsilence`. -/
def AudioTables.silence (tab : AudioTables) (ulaw : Bool) : UInt8 :=
  if ulaw then tab.ulawsilence else tab.alawsilence

/-- The fields of `dsp_t` that the CMX reads or writes; `tone` stands for `dsp->tone.tone != 0`. -/
structure Dsp (k : Nat) where
  conf : Option Nat
  member : Option Nat
  confId : Nat
  bActive : Bool
  ulaw : Bool
  echo : Bool
  txMix : Bool
  hfcId : Nat
  tone : Bool
  largest : Nat
  wRx : Ptr k
  rRx : Ptr k
  wTx : Ptr k
  rTx : Ptr k
  rxBuff : Ptr k → UInt8
  txBuff : Ptr k → UInt8

/-- `conf_member_t`: a node of a conference's member chain, at address `addr`. -/
structure ConfMember where
  addr : Nat
  dsp : Nat
deriving DecidableEq, Repr

/-- `conference_t`, at address `addr`; `mlist` is its member chain in order. -/
structure Conference (k : Nat) where
  addr : Nat
  id : Nat
  mlist : List ConfMember
  wMin : Ptr k
  wMax : Ptr k
  largest : Nat
  confBuff : Ptr k → Int
  solution : Int
  hfcId : Nat

/-- The global state of the CMX: `Conf_list` in chain order, every channel, and the allocator. -/
structure Cmx (k : Nat) where
  confList : List (Conference k)
  dsps : Nat → Dsp k
  heap : Nat

variable {k : Nat}

namespace Cmx

/-- Follow a conference pointer. -/
def confAt (s : Cmx k) (a : Nat) : Option (Conference k) := s.confList.find? (·.addr == a)

/-- `dsp->conf`, followed. -/
def dspConf (s : Cmx k) (d : Nat) : Option (Conference k) := (s.dsps d).conf.bind s.confAt

/-- Write channel `d`. -/
def setDsp (s : Cmx k) (d : Nat) (x : Dsp k) : Cmx k := { s with dsps := Function.update s.dsps d x }

/-- Write the conference at address `a`. -/
def setConf (s : Cmx k) (a : Nat) (c : Conference k) : Cmx k :=
  { s with confList := s.confList.map fun c' => if c'.addr = a then c else c' }

@[simp] theorem setDsp_confList (s : Cmx k) (d : Nat) (x : Dsp k) : (s.setDsp d x).confList = s.confList := rfl
@[simp] theorem setDsp_heap (s : Cmx k) (d : Nat) (x : Dsp k) : (s.setDsp d x).heap = s.heap := rfl
@[simp] theorem setDsp_dsps (s : Cmx k) (d e : Nat) (x : Dsp k) :
    (s.setDsp d x).dsps e = if e = d then x else s.dsps e := by
  by_cases h : e = d
  · subst h; simp [setDsp]
  · simp [setDsp, h]
@[simp] theorem setDsp_self (s : Cmx k) (d : Nat) : s.setDsp d (s.dsps d) = s := by simp [setDsp]
@[simp] theorem setConf_dsps (s : Cmx k) (a : Nat) (c : Conference k) : (s.setConf a c).dsps = s.dsps := rfl
@[simp] theorem setConf_heap (s : Cmx k) (a : Nat) (c : Conference k) : (s.setConf a c).heap = s.heap := rfl
@[simp] theorem setConf_confList (s : Cmx k) (a : Nat) (c : Conference k) :
    (s.setConf a c).confList = s.confList.map fun c' => if c'.addr = a then c else c' := rfl

theorem confAt_mem {s : Cmx k} {a : Nat} {c : Conference k} (h : s.confAt a = some c) :
    c ∈ s.confList := List.mem_of_find?_eq_some h

theorem confAt_addr {s : Cmx k} {a : Nat} {c : Conference k} (h : s.confAt a = some c) :
    c.addr = a := by
  simpa using List.find?_some h

theorem dspConf_mem {s : Cmx k} {d : Nat} {c : Conference k} (h : s.dspConf d = some c) :
    c ∈ s.confList := by
  simp only [dspConf, Option.bind_eq_some] at h
  obtain ⟨a, -, h⟩ := h
  exact confAt_mem h

end Cmx

/-- `conf->next`: the conference after the one at address `a` in `Conf_list`. -/
def confNext (a : Nat) : List (Conference k) → Option (Conference k)
  | [] => none
  | c :: cs => if c.addr = a then cs.head? else confNext a cs

end MisdnDsp
