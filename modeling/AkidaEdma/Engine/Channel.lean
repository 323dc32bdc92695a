import AkidaEdma.Engine.Descriptor
import Mathlib.Data.Int.Notation
import Mathlib.Data.List.Basic

/-! # The channel operations of the engine core

Each operation of the source is a function on the channel, taken as one atomic
step. A call out of the channel code (`dw_edma_core_start`,
`vchan_cookie_complete`) is an event in the result, in the order of the calls.
-/
namespace AkidaEdma.DwEdma

/-- `enum dw_edma_request`. -/
inductive Request | none | stop | pause
  deriving DecidableEq, Repr

/-- The enumerator values, which the source compares with `>`. -/
def Request.val : Request → ℕ
  | .none => 0
  | .stop => 1
  | .pause => 2

/-- `enum dw_edma_status`. -/
inductive Status | idle | pause | busy
  deriving DecidableEq, Repr

/-- `enum dma_status`, as far as the cores return it. -/
inductive DmaStatus | complete | inProgress | error
  deriving DecidableEq, Repr

/-- The addresses of `struct dma_slave_config`. -/
structure SlaveConfig where
  srcAddr : ℕ
  dstAddr : ℕ
  deriving DecidableEq, Repr

/-- `struct dw_edma_chan` with the lists of its `virt_dma_chan`. -/
structure Chan where
  id : ℕ
  dir : Dir
  llMax : ℕ
  request : Request
  status : Status
  configured : Bool
  config : SlaveConfig
  descSubmitted : List Desc
  descIssued : List Desc
  descCompleted : List Desc
  deriving DecidableEq, Repr

/-- The arguments of a call of `dw_edma_core_start`, with the owner of the chunk. -/
structure Started where
  vd : ℕ
  chunk : Chunk
  first : Bool
  deriving DecidableEq, Repr

def EPERM : ℤ := 1
def EBUSY : ℤ := 16

/-- `vchan_tx_submit`: the descriptor joins the tail of `desc_submitted`. -/
def txSubmit (desc : Desc) (chan : Chan) : Chan :=
  { chan with descSubmitted := chan.descSubmitted ++ [desc] }

/-- `vchan_issue_pending`, without its return value. -/
def vchanIssuePending (chan : Chan) : Chan :=
  { chan with
    descSubmitted := []
    descIssued := chan.descIssued ++ chan.descSubmitted }

/-- `list_del` of the head of `desc_issued`, then `vchan_cookie_complete`. -/
def vchanCookieComplete (vd : Desc) (rest : List Desc) (chan : Chan) : Chan :=
  { chan with
    descIssued := rest
    descCompleted := chan.descCompleted ++ [vd] }

/-- `dw_edma_start_transfer`; the result is `some` exactly where the source returns 1. -/
def startTransfer (chan : Chan) : Chan × Option Started :=
  match chan.descIssued with
  | [] => (chan,none)
  | desc :: rest =>
    match desc.chunk with
    | [] => (chan,none)
    | child :: chunks =>
      ({ chan with descIssued := desc.consume child chunks :: rest },
        some ⟨desc.vd,child,desc.xferSz == 0⟩)

/-- `dw_edma_device_config`, which always returns 0. -/
def deviceConfig (config : SlaveConfig) (chan : Chan) : Chan :=
  { chan with config := config, configured := true }

/-- `dw_edma_device_pause`. -/
def devicePause (chan : Chan) : Chan × ℤ :=
  if !chan.configured then (chan,-EPERM)
  else if chan.status != .busy then (chan,-EPERM)
  else if chan.request != .none then (chan,-EPERM)
  else ({ chan with request := .pause },0)

/-- `dw_edma_device_resume`: the value of `dw_edma_start_transfer` is not looked at. -/
def deviceResume (chan : Chan) : (Chan × Option Started) × ℤ :=
  if !chan.configured then ((chan,none),-EPERM)
  else if chan.status != .pause then ((chan,none),-EPERM)
  else if chan.request != .none then ((chan,none),-EPERM)
  else (startTransfer { chan with status := .busy },0)

/-- `dw_edma_device_terminate_all`; `chStatus` is what `dw_edma_core_ch_status` returns. -/
def deviceTerminateAll (chStatus : DmaStatus) (chan : Chan) : Chan × ℤ :=
  if !chan.configured then (chan,0)
  else if chan.status == .pause then ({ chan with status := .idle, configured := false },0)
  else if chan.status == .idle then ({ chan with configured := false },0)
  else if chStatus == .complete then ({ chan with status := .idle, configured := false },0)
  else if chan.request.val > Request.pause.val then (chan,-EPERM)
  else ({ chan with request := .stop },0)

/-- `dw_edma_device_issue_pending`. -/
def deviceIssuePending (chan : Chan) : Chan × Option Started :=
  if !chan.configured then (chan,none)
  else
    let chan := vchanIssuePending chan
    if chan.descIssued ≠ [] ∧ chan.request = .none ∧ chan.status = .idle then
      startTransfer { chan with status := .busy }
    else (chan,none)

/-- The `EDMA_REQ_NONE` branch of the done handler: the head is completed when its
counter is zero, and the next chunk is started if there is one. -/
def continueTransfer (vd : Desc) (rest : List Desc) (chan : Chan) : Chan × Option Started :=
  let chan := if vd.chunksAlloc = 0 then vchanCookieComplete vd rest chan else chan
  let r := startTransfer chan
  ({ r.1 with status := if r.2.isSome then .busy else .idle },r.2)

/-- `dw_edma_done_interrupt`. -/
def doneInterrupt (chan : Chan) : Chan × Option Started :=
  match chan.descIssued with
  | [] => (chan,none)
  | vd :: rest =>
    match chan.request with
    | .none => continueTransfer vd rest chan
    | .stop =>
      ({ vchanCookieComplete vd rest chan with request := .none, status := .idle },none)
    | .pause => ({ chan with request := .none, status := .pause },none)

/-- `dw_edma_abort_interrupt`. -/
def abortInterrupt (chan : Chan) : Chan :=
  match chan.descIssued with
  | [] => { chan with request := .none, status := .idle }
  | vd :: rest =>
    { vchanCookieComplete vd rest chan with request := .none, status := .idle }

/-! ## What each operation can do -/

theorem startTransfer_nil {c : Chan} (h : c.descIssued = []) :
    startTransfer c = (c,none) := by simp only [startTransfer,h]

theorem startTransfer_exhausted {c : Chan} {d : Desc} {rest : List Desc}
    (h : c.descIssued = d :: rest) (hd : d.chunk = []) :
    startTransfer c = (c,none) := by simp only [startTransfer,h,hd]

theorem startTransfer_cons {c : Chan} {d : Desc} {rest : List Desc} {k : Chunk}
    {ks : List Chunk} (h : c.descIssued = d :: rest) (hd : d.chunk = k :: ks) :
    startTransfer c = ({ c with descIssued := d.consume k ks :: rest },
      some ⟨d.vd,k,d.xferSz == 0⟩) := by simp only [startTransfer,h,hd]

/-- Either nothing starts and nothing changes, or the head gives up its first chunk. -/
theorem startTransfer_cases (c : Chan) :
    (startTransfer c = (c,none) ∧ ∀ d rest, c.descIssued = d :: rest → d.chunk = []) ∨
    ∃ d rest k ks, c.descIssued = d :: rest ∧ d.chunk = k :: ks ∧
      startTransfer c = ({ c with descIssued := d.consume k ks :: rest },
        some ⟨d.vd,k,d.xferSz == 0⟩) := by
  cases h : c.descIssued with
  | nil => exact Or.inl ⟨startTransfer_nil h,by simp⟩
  | cons d rest =>
    cases hd : d.chunk with
    | nil =>
      refine Or.inl ⟨startTransfer_exhausted h hd,?_⟩
      rintro d' rest' ⟨⟩
      exact hd
    | cons k ks => exact Or.inr ⟨d,rest,k,ks,rfl,hd,startTransfer_cons h hd⟩

@[simp] theorem startTransfer_request (c : Chan) :
    (startTransfer c).1.request = c.request := by
  rcases startTransfer_cases c with ⟨h,_⟩ | ⟨d,rest,k,ks,_,_,h⟩ <;> rw [h]
@[simp] theorem startTransfer_status (c : Chan) :
    (startTransfer c).1.status = c.status := by
  rcases startTransfer_cases c with ⟨h,_⟩ | ⟨d,rest,k,ks,_,_,h⟩ <;> rw [h]
@[simp] theorem startTransfer_configured (c : Chan) :
    (startTransfer c).1.configured = c.configured := by
  rcases startTransfer_cases c with ⟨h,_⟩ | ⟨d,rest,k,ks,_,_,h⟩ <;> rw [h]
@[simp] theorem startTransfer_submitted (c : Chan) :
    (startTransfer c).1.descSubmitted = c.descSubmitted := by
  rcases startTransfer_cases c with ⟨h,_⟩ | ⟨d,rest,k,ks,_,_,h⟩ <;> rw [h]
@[simp] theorem startTransfer_llMax (c : Chan) :
    (startTransfer c).1.llMax = c.llMax := by
  rcases startTransfer_cases c with ⟨h,_⟩ | ⟨d,rest,k,ks,_,_,h⟩ <;> rw [h]
@[simp] theorem startTransfer_completed (c : Chan) :
    (startTransfer c).1.descCompleted = c.descCompleted := by
  rcases startTransfer_cases c with ⟨h,_⟩ | ⟨d,rest,k,ks,_,_,h⟩ <;> rw [h]

theorem startTransfer_withStatus (c : Chan) (st : Status) :
    startTransfer { c with status := st } =
      ({ (startTransfer c).1 with status := st },(startTransfer c).2) := by
  cases hi : c.descIssued with
  | nil => simp only [startTransfer,hi]
  | cons d rest => cases hd : d.chunk <;> simp only [startTransfer,hi,hd]

theorem devicePause_cases (c : Chan) :
    devicePause c = (c,-EPERM) ∨
    (c.configured = true ∧ c.status = .busy ∧ c.request = .none ∧
      devicePause c = ({ c with request := .pause },0)) := by
  unfold devicePause
  cases hc : c.configured with
  | false => exact Or.inl rfl
  | true =>
    by_cases hst : c.status = .busy
    · by_cases hreq : c.request = .none
      · exact Or.inr ⟨rfl,hst,hreq,by simp [hst,hreq]⟩
      · exact Or.inl (by simp [hst,hreq])
    · exact Or.inl (by simp [hst])

theorem deviceResume_cases (c : Chan) :
    deviceResume c = ((c,none),-EPERM) ∨
    (c.configured = true ∧ c.status = .pause ∧ c.request = .none ∧
      deviceResume c = (startTransfer { c with status := .busy },0)) := by
  unfold deviceResume
  cases hc : c.configured with
  | false => exact Or.inl rfl
  | true =>
    by_cases hst : c.status = .pause
    · by_cases hreq : c.request = .none
      · exact Or.inr ⟨rfl,hst,hreq,by simp [hst,hreq]⟩
      · exact Or.inl (by simp [hst,hreq])
    · exact Or.inl (by simp [hst])

/-- An unconfigured channel is left alone; otherwise the submitted descriptors are
issued, and the head is started on an idle channel without a request. -/
theorem deviceIssuePending_cases (c : Chan) :
    (c.configured = false ∧ deviceIssuePending c = (c,none)) ∨
    (c.configured = true ∧
      ¬ (c.descIssued ++ c.descSubmitted ≠ [] ∧ c.request = .none ∧ c.status = .idle) ∧
      deviceIssuePending c = (vchanIssuePending c,none)) ∨
    (c.configured = true ∧ c.descIssued ++ c.descSubmitted ≠ [] ∧
      c.request = .none ∧ c.status = .idle ∧
      deviceIssuePending c = startTransfer { vchanIssuePending c with status := .busy }) := by
  unfold deviceIssuePending
  cases hc : c.configured with
  | false => exact Or.inl ⟨rfl,rfl⟩
  | true =>
    right
    by_cases h : c.descIssued ++ c.descSubmitted ≠ [] ∧ c.request = .none ∧
        c.status = .idle
    · exact Or.inr ⟨rfl,h.1,h.2.1,h.2.2,if_pos h⟩
    · exact Or.inl ⟨rfl,h,if_neg h⟩

theorem doneInterrupt_nil {c : Chan} (h : c.descIssued = []) :
    doneInterrupt c = (c,none) := by simp only [doneInterrupt,h]

theorem doneInterrupt_none {c : Chan} {d : Desc} {rest : List Desc}
    (h : c.descIssued = d :: rest) (hreq : c.request = .none) :
    doneInterrupt c = continueTransfer d rest c := by simp only [doneInterrupt,h,hreq]

theorem doneInterrupt_stop {c : Chan} {d : Desc} {rest : List Desc}
    (h : c.descIssued = d :: rest) (hreq : c.request = .stop) : doneInterrupt c =
      ({ vchanCookieComplete d rest c with request := .none, status := .idle },none) := by
  simp only [doneInterrupt,h,hreq]

theorem doneInterrupt_pause {c : Chan} {d : Desc} {rest : List Desc}
    (h : c.descIssued = d :: rest) (hreq : c.request = .pause) : doneInterrupt c =
      ({ c with request := .none, status := .pause },none) := by
  simp only [doneInterrupt,h,hreq]

/-- The three branches of the done handler. -/
theorem doneInterrupt_cons {c : Chan} {d : Desc} {rest : List Desc}
    (h : c.descIssued = d :: rest) :
    (c.request = .none ∧ doneInterrupt c = continueTransfer d rest c) ∨
    (c.request = .stop ∧ doneInterrupt c =
      ({ vchanCookieComplete d rest c with request := .none, status := .idle },none)) ∨
    (c.request = .pause ∧ doneInterrupt c =
      ({ c with request := .none, status := .pause },none)) := by
  cases hreq : c.request with
  | none => exact Or.inl ⟨rfl,doneInterrupt_none h hreq⟩
  | stop => exact Or.inr (Or.inl ⟨rfl,doneInterrupt_stop h hreq⟩)
  | pause => exact Or.inr (Or.inr ⟨rfl,doneInterrupt_pause h hreq⟩)

theorem abortInterrupt_nil {c : Chan} (h : c.descIssued = []) :
    abortInterrupt c = { c with request := .none, status := .idle } := by
  simp only [abortInterrupt,h]

theorem abortInterrupt_cons {c : Chan} {d : Desc} {rest : List Desc}
    (h : c.descIssued = d :: rest) : abortInterrupt c =
      { vchanCookieComplete d rest c with request := .none, status := .idle } := by
  simp only [abortInterrupt,h]

/-- `EDMA_REQ_PAUSE` is the largest request, so the refusing exit is never taken. -/
theorem request_val_le (r : Request) : r.val ≤ Request.pause.val := by
  cases r <;> decide

/-- The five exits of `dw_edma_device_terminate_all`. -/
theorem deviceTerminateAll_cases (st : DmaStatus) (c : Chan) :
    (c.configured = false ∧ deviceTerminateAll st c = (c,0)) ∨
    (c.configured = true ∧ c.status ≠ .busy ∧
      deviceTerminateAll st c = ({ c with status := .idle, configured := false },0)) ∨
    (c.configured = true ∧ c.status = .busy ∧ st = .complete ∧
      deviceTerminateAll st c = ({ c with status := .idle, configured := false },0)) ∨
    (c.configured = true ∧ c.status = .busy ∧ st ≠ .complete ∧
      deviceTerminateAll st c = ({ c with request := .stop },0)) := by
  obtain ⟨id,dir,llMax,request,status,configured,config,sub,iss,comp⟩ := c
  cases configured with
  | false => exact Or.inl ⟨rfl,rfl⟩
  | true =>
    right
    cases status with
    | idle => exact Or.inl ⟨rfl,by simp,rfl⟩
    | pause => exact Or.inl ⟨rfl,by simp,rfl⟩
    | busy =>
      right
      by_cases hst : st = .complete
      · subst hst
        exact Or.inl ⟨rfl,rfl,rfl,rfl⟩
      · have hle := request_val_le request
        refine Or.inr ⟨rfl,rfl,hst,?_⟩
        simp [deviceTerminateAll,hst,Nat.not_lt.mpr hle]

/-- The call never fails: its refusing exit is unreachable. -/
theorem deviceTerminateAll_returns (st : DmaStatus) (c : Chan) :
    (deviceTerminateAll st c).2 = 0 := by
  rcases deviceTerminateAll_cases st c with ⟨_,h⟩ | ⟨_,_,h⟩ | ⟨_,_,_,h⟩ | ⟨_,_,_,h⟩ <;> rw [h]

end AkidaEdma.DwEdma
