import AkidaEdma.Driver.ReadWrite
import AkidaEdma.Engine.Run
import Mathlib.Logic.Function.Basic

/-! # One call of `akida_dma_transfer`

The steps of `akida_dma_transfer` on its channel, the callback of its descriptor, and what
the hardware and the tasklet do on the channel meanwhile. The mappings that
`dma_map_single` makes for a channel are numbered; nothing in the code reads the numbers.
-/
namespace AkidaEdma.Driver
open DwEdma

/-- The elements of `rxchan` and `txchan`. -/
abbrev ChanId := Way × Fin 2

def Way.dir : Way → Dir
  | .rx => .write
  | .tx => .read

/-- `dma_xfer_dir`. -/
def Way.direction : Way → XferDirection
  | .rx => .devToMem
  | .tx => .memToDev

/-- What probing fixes; every channel has room for at least one burst. -/
structure Device where
  chip : Chip
  ram : DmaRam
  llMax : ChanId → ℕ
  room : ∀ c, 1 ≤ llMax c

/-- `complete` on the counter of a `struct completion`. -/
def complete (done : ℕ) : ℕ := if done = 4294967295 then done else done + 1

/-- What a successful wait does to the counter. -/
def waitDone (done : ℕ) : ℕ := if done = 4294967295 then done else done - 1

/-- The mapping that a `dma_unmap_single` is applied to, and the one that it is meant for:
that of the descriptor in the callback, and that of the call on its error path. -/
structure Unmap where
  applied : ℕ
  owner : ℕ
  deriving DecidableEq, Repr

/-- `struct akida_dma_chan`, except for `is_used`. The tasklet ran the callbacks of the first
`called` completed descriptors, `mapping` is the number of the mapping in `dmaBuf` and
`dmaLen` (0 for none), `mapped` mappings were made, and `owner` gives the one that a
descriptor was prepared with. -/
structure DmaChan where
  engine : DwEdma.State
  dmaComplete : ℕ
  dmaBuf : ℕ
  dmaLen : ℕ
  called : ℕ
  mapping : ℕ
  mapped : ℕ
  owner : ℕ → ℕ
  unmaps : List Unmap

def DmaChan.init (dev : Device) (c : ChanId) : DmaChan :=
  ⟨DwEdma.State.init c.2 c.1.dir (dev.llMax c),0,0,0,0,0,0,fun _ => 0,[]⟩

/-- An operation of the engine on the channel. -/
def DmaChan.op (dev : Device) (c : DmaChan) (o : Op) : Option DmaChan :=
  (DwEdma.step dev.chip c.engine o).map fun e => { c with engine := e }

/-- `dma_unmap_single` of the channel's `dma_buf` and `dma_len`. -/
def DmaChan.unmapSingle (c : DmaChan) (owner : ℕ) : DmaChan :=
  { c with unmaps := c.unmaps ++ [⟨c.mapping,owner⟩] }

/-- `akida_dma_callback`, for a descriptor prepared with mapping `owner`. -/
def DmaChan.callback (c : DmaChan) (owner : ℕ) : DmaChan :=
  { c.unmapSingle owner with dmaComplete := complete c.dmaComplete }

/-- The tasklet runs the callback of the next completed descriptor. -/
def DmaChan.tasklet (c : DmaChan) : Option DmaChan :=
  c.engine.chan.descCompleted[c.called]?.map fun d =>
    { c.callback (c.owner d.vd) with called := c.called + 1 }

/-- Where a call of `akida_dma_transfer` is, by what it does next. -/
inductive Stage
  | map | config | prep | reinit | submit | issue | wait | terminate
  | err (ret : ℤ)
  | returned (ret : ℤ)
  deriving DecidableEq, Repr

/-- A call of `akida_dma_transfer`; `txdesc` is its descriptor once it has one, and `mapping`
the mapping that it made. -/
structure Xfer where
  devAddr : ℕ
  len : ℕ
  txdesc : ℕ
  mapping : ℕ
  stage : Stage
  deriving DecidableEq, Repr

def Xfer.start (devAddr len : ℕ) : Xfer := ⟨devAddr,len,0,0,.map⟩

/-- What the environment decides at a step of a thread: whether what may fail succeeds (a
wait fails by expiring), whether a signal is pending, the address of a new mapping, and the
value of `dw_edma_core_ch_status`. -/
structure Choice where
  ok : Bool
  signal : Bool
  addr : ℕ
  st : DmaStatus
  deriving DecidableEq, Repr

/-- `dma_sconfig`. -/
def slaveConfig (way : Way) (devAddr dmaBuf : ℕ) : SlaveConfig :=
  match way with
  | .tx => ⟨dmaBuf,devAddr⟩
  | .rx => ⟨devAddr,dmaBuf⟩

/-- The request of `dmaengine_prep_slave_single`. -/
def slaveSingle (way : Way) (buf len : ℕ) : Transfer :=
  ⟨way.direction,.scatterGather [⟨buf,len⟩] 1⟩

/-- The next step of `akida_dma_transfer`. The calls of `dmaengine_slave_config` and of
`dmaengine_submit` do not fail: the first returns 0, the second a positive cookie. -/
def Xfer.step (dev : Device) (way : Way) (x : Xfer) (c : DmaChan) (ch : Choice) :
    Option (DmaChan × Xfer) :=
  match x.stage with
  | .map =>
    if ch.ok then
      some ({ c with
          dmaLen := x.len, dmaBuf := ch.addr, mapped := c.mapped + 1, mapping := c.mapped + 1 },
        { x with stage := .config, mapping := c.mapped + 1 })
    else
      some ({ c with dmaLen := x.len, dmaBuf := ch.addr, mapping := 0 },
        { x with stage := .returned (-EINVAL) })
  | .config =>
    (c.op dev (.config (slaveConfig way x.devAddr c.dmaBuf))).map fun c =>
      (c,{ x with stage := .prep })
  | .prep =>
    match (if ch.ok then prepSlaveSingle dev.chip c.engine.chan c.engine.nextVd c.dmaBuf c.dmaLen
        way.direction else none) with
    | none => some (c,{ x with stage := .err (-EINVAL) })
    | some d => (c.op dev (.prep (slaveSingle way c.dmaBuf c.dmaLen))).map fun c =>
        ({ c with owner := Function.update c.owner d.vd c.mapping },
          { x with stage := .reinit, txdesc := d.vd })
  | .reinit => some ({ c with dmaComplete := 0 },{ x with stage := .submit })
  | .submit => (c.op dev (.submit x.txdesc)).map fun c => (c,{ x with stage := .issue })
  | .issue => (c.op dev .issuePending).map fun c => (c,{ x with stage := .wait })
  | .wait =>
    if ch.ok then
      if c.dmaComplete = 0 then none
      else some ({ c with dmaComplete := waitDone c.dmaComplete },{ x with stage := .returned 0 })
    else
      if c.dmaComplete = 0 then some (c,{ x with stage := .terminate }) else none
  | .terminate =>
    (c.op dev (.terminateAll ch.st)).map fun c => (c,{ x with stage := .err (-ETIMEDOUT) })
  | .err ret => some (c.unmapSingle x.mapping,{ x with stage := .returned ret })
  | .returned _ => none

/-- What a step of `akida_dma_transfer` can do, one constructor an outcome. -/
inductive Xfer.Takes (dev : Device) (way : Way) (x : Xfer) (c : DmaChan) (ch : Choice) :
    DmaChan → Xfer → Prop
  | map (hs : x.stage = .map) : Takes dev way x c ch
      { c with dmaLen := x.len, dmaBuf := ch.addr, mapped := c.mapped + 1, mapping := c.mapped + 1 }
      { x with stage := .config, mapping := c.mapped + 1 }
  | unmapped (hs : x.stage = .map) : Takes dev way x c ch
      { c with dmaLen := x.len, dmaBuf := ch.addr, mapping := 0 }
      { x with stage := .returned (-EINVAL) }
  | config {e : DwEdma.State} (hs : x.stage = .config)
      (he : DwEdma.step dev.chip c.engine (.config (slaveConfig way x.devAddr c.dmaBuf)) = some e) :
      Takes dev way x c ch { c with engine := e } { x with stage := .prep }
  | unprepared (hs : x.stage = .prep) :
      Takes dev way x c ch c { x with stage := .err (-EINVAL) }
  | prep {d : Desc} {e : DwEdma.State} (hs : x.stage = .prep)
      (hd : prepSlaveSingle dev.chip c.engine.chan c.engine.nextVd c.dmaBuf c.dmaLen
        way.direction = some d)
      (he : DwEdma.step dev.chip c.engine (.prep (slaveSingle way c.dmaBuf c.dmaLen)) = some e) :
      Takes dev way x c ch { c with engine := e, owner := Function.update c.owner d.vd c.mapping }
        { x with stage := .reinit, txdesc := d.vd }
  | reinit (hs : x.stage = .reinit) :
      Takes dev way x c ch { c with dmaComplete := 0 } { x with stage := .submit }
  | submit {e : DwEdma.State} (hs : x.stage = .submit)
      (he : DwEdma.step dev.chip c.engine (.submit x.txdesc) = some e) :
      Takes dev way x c ch { c with engine := e } { x with stage := .issue }
  | issue {e : DwEdma.State} (hs : x.stage = .issue)
      (he : DwEdma.step dev.chip c.engine .issuePending = some e) :
      Takes dev way x c ch { c with engine := e } { x with stage := .wait }
  | completed (hs : x.stage = .wait) (hc : c.dmaComplete ≠ 0) :
      Takes dev way x c ch { c with dmaComplete := waitDone c.dmaComplete }
        { x with stage := .returned 0 }
  | expired (hs : x.stage = .wait) (hok : ch.ok = false) (hc : c.dmaComplete = 0) :
      Takes dev way x c ch c { x with stage := .terminate }
  | terminate {e : DwEdma.State} (hs : x.stage = .terminate)
      (he : DwEdma.step dev.chip c.engine (.terminateAll ch.st) = some e) :
      Takes dev way x c ch { c with engine := e } { x with stage := .err (-ETIMEDOUT) }
  | err {ret : ℤ} (hs : x.stage = .err ret) :
      Takes dev way x c ch (c.unmapSingle x.mapping) { x with stage := .returned ret }

theorem op_some {dev : Device} {c c' : DmaChan} {o : Op} (h : c.op dev o = some c') :
    ∃ e, DwEdma.step dev.chip c.engine o = some e ∧ c' = { c with engine := e } := by
  obtain ⟨e,he,rfl⟩ := Option.map_eq_some_iff.mp h
  exact ⟨e,he,rfl⟩

theorem xfer_step_takes {dev : Device} {way : Way} {x x' : Xfer} {c c' : DmaChan} {ch : Choice}
    (h : x.step dev way c ch = some (c',x')) : x.Takes dev way c ch c' x' := by
  unfold Xfer.step at h
  cases hs : x.stage <;> simp only [hs] at h
  case map =>
    split at h <;> cases h
    · exact .map hs
    · exact .unmapped hs
  case config =>
    obtain ⟨_,hc,heq⟩ := Option.map_eq_some_iff.mp h
    obtain ⟨e,he,rfl⟩ := op_some hc
    cases heq
    exact .config hs he
  case prep =>
    split at h
    · cases h
      exact .unprepared hs
    · rename_i d hd
      obtain ⟨_,hc,heq⟩ := Option.map_eq_some_iff.mp h
      obtain ⟨e,he,rfl⟩ := op_some hc
      cases heq
      split at hd
      · exact .prep hs hd he
      · contradiction
  case reinit =>
    cases h
    exact .reinit hs
  case submit =>
    obtain ⟨_,hc,heq⟩ := Option.map_eq_some_iff.mp h
    obtain ⟨e,he,rfl⟩ := op_some hc
    cases heq
    exact .submit hs he
  case issue =>
    obtain ⟨_,hc,heq⟩ := Option.map_eq_some_iff.mp h
    obtain ⟨e,he,rfl⟩ := op_some hc
    cases heq
    exact .issue hs he
  case wait =>
    split at h
    · split at h
      · contradiction
      · cases h
        exact .completed hs (by assumption)
    · rename_i hok
      split at h
      · cases h
        exact .expired hs (by simpa using hok) (by assumption)
      · contradiction
  case terminate =>
    obtain ⟨_,hc,heq⟩ := Option.map_eq_some_iff.mp h
    obtain ⟨e,he,rfl⟩ := op_some hc
    cases heq
    exact .terminate hs he
  case err ret =>
    cases h
    exact .err hs
  case returned ret => contradiction

end AkidaEdma.Driver
