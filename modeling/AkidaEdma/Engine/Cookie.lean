import AkidaEdma.Engine.Accounting
import AkidaEdma.Engine.Solo
import AkidaEdma.Library.CyclicCounter
import Mathlib.Data.List.Find
import Mathlib.Order.Interval.Set.Defs

/-! # Cookies

A submission returns a cookie, and its status is asked for by cookie. The channel keeps two of
them, the last one given away and the last one completed, and every answer is made from these.
-/
namespace AkidaEdma.DwEdma
open Transition CyclicCounter

/-- The value of an `s32`. -/
def s32 (x : ℤ) : ℤ := Int.bmod x 4294967296

def DMA_MIN_COOKIE : ℤ := 1

/-- The number of different cookies. -/
def cookiePeriod : ℕ := 2147483647

/-- The cookies of `struct dma_chan` and of the descriptors; `bug` is set where a `BUG_ON`
is reached. -/
structure Cookies where
  cookie : ℤ
  completedCookie : ℤ
  tx : ℕ → ℤ
  bug : Bool

/-- `dma_cookie_init`, before any descriptor has a cookie. -/
def dmaCookieInit : Cookies := ⟨DMA_MIN_COOKIE,DMA_MIN_COOKIE,fun _ => 0,false⟩

/-- `dma_cookie_assign`. -/
def dmaCookieAssign (vd : ℕ) (c : Cookies) : Cookies :=
  let cookie := s32 (c.cookie + 1)
  let cookie := if cookie < DMA_MIN_COOKIE then DMA_MIN_COOKIE else cookie
  { c with cookie := cookie, tx := Function.update c.tx vd cookie }

/-- `dma_cookie_complete`. -/
def dmaCookieComplete (vd : ℕ) (c : Cookies) : Cookies :=
  { c with
    completedCookie := c.tx vd
    tx := Function.update c.tx vd 0
    bug := c.bug || decide (c.tx vd < DMA_MIN_COOKIE) }

/-- `struct dma_tx_state`. -/
structure TxState where
  last : ℤ
  used : ℤ
  residue : ℕ
  inFlightBytes : ℕ
  deriving DecidableEq, Repr

/-- `dma_cookie_status`; `isComplete` is `dma_async_is_complete`. -/
def dmaCookieStatus (isComplete : ℤ → ℤ → ℤ → TxStatus) (cookie : ℤ) (c : Cookies) :
    TxStatus × TxState :=
  (isComplete cookie c.completedCookie c.cookie,⟨c.completedCookie,c.cookie,0,0⟩)

/-- `vchan_find_desc`: the issued descriptor with this cookie. -/
def vchanFindDesc (cookie : ℤ) (c : Cookies) (chan : Chan) : Option Desc :=
  chan.descIssued.find? fun d => c.tx d.vd == cookie

/-- `dw_edma_device_tx_status`; `wanted` tells whether the caller passes a `txstate`. -/
def dwEdmaDeviceTxStatus (isComplete : ℤ → ℤ → ℤ → TxStatus) (cookie : ℤ) (wanted : Bool)
    (chan : Chan) (c : Cookies) : TxStatus × Option TxState :=
  let (ret,txstate) := dmaCookieStatus isComplete cookie c
  if ret = .complete then (ret,if wanted then some txstate else none)
  else
    let ret := if ret = .inProgress ∧ chan.status = .pause then .paused else ret
    if !wanted then (ret,none)
    else
      let residue := match vchanFindDesc cookie c chan with
        | some desc => u32 (desc.allocSz + 4294967296 - desc.xferSz)
        | none => 0
      (ret,some { txstate with residue := residue })

/-- A channel with its cookies, and what the submissions returned, in order. -/
structure Tracked where
  engine : State
  cookies : Cookies
  returned : List ℤ

def Tracked.init (id : ℕ) (dir : Dir) (llMax : ℕ) : Tracked :=
  ⟨State.init id dir llMax,dmaCookieInit,[]⟩

/-- A submission assigns a cookie and returns it, and each completed descriptor is passed to
`dma_cookie_complete`. -/
def Tracked.step (chip : Chip) (x : Tracked) (op : Op) : Option Tracked :=
  (DwEdma.step chip x.engine op).map fun t =>
    let assigned := op.submits.foldl (fun c vd => dmaCookieAssign vd c) x.cookies
    let completed := t.chan.descCompleted.drop x.engine.chan.descCompleted.length
    ⟨t,completed.foldl (fun c d => dmaCookieComplete d.vd c) assigned,
      x.returned ++ op.submits.map assigned.tx⟩

/-! ## First in, first out -/

/-- What an operation on the channel does to the line of the descriptors. -/
structure Chan.Advances (c c' : Chan) : Prop where
  line : c'.line = c.line
  completed : c.descCompleted <+: c'.descCompleted

theorem Chan.Advances.of_lists {c c' : Chan} (hs : c'.descSubmitted = c.descSubmitted)
    (hi : c'.descIssued = c.descIssued) (hc : c'.descCompleted = c.descCompleted) :
    c.Advances c' := by
  refine ⟨?_,hc ▸ List.prefix_rfl⟩
  simp only [Chan.line,hs,hi,hc]

theorem Chan.Advances.refl (c : Chan) : c.Advances c := .of_lists rfl rfl rfl

theorem Chan.Advances.trans {a b c : Chan} (hab : a.Advances b) (hbc : b.Advances c) :
    a.Advances c := ⟨hbc.line.trans hab.line,hab.completed.trans hbc.completed⟩

theorem advances_vchanIssuePending (c : Chan) : c.Advances (vchanIssuePending c) :=
  ⟨by simp [Chan.line,vchanIssuePending],List.prefix_rfl⟩

theorem advances_vchanCookieComplete {c : Chan} {d : Desc} {rest : List Desc}
    (hi : c.descIssued = d :: rest) : c.Advances (vchanCookieComplete d rest c) :=
  ⟨by simp [Chan.line,vchanCookieComplete,hi],List.prefix_append _ _⟩

theorem advances_startTransfer (c : Chan) : c.Advances (startTransfer c).1 := by
  rcases startTransfer_cases c with ⟨he,_⟩ | ⟨d,rest,k,ks,hi,_,he⟩ <;> rw [he]
  · exact .refl c
  · exact ⟨by simp [Chan.line,hi],List.prefix_rfl⟩

theorem advances_doneInterrupt (c : Chan) : c.Advances (doneInterrupt c).1 := by
  cases hi : c.descIssued with
  | nil =>
    rw [doneInterrupt_nil hi]
    exact .refl c
  | cons d rest =>
    rcases doneInterrupt_cons hi with ⟨_,he⟩ | ⟨_,he⟩ | ⟨_,he⟩ <;> rw [he]
    · unfold continueTransfer
      refine .trans ?_ (.trans (advances_startTransfer _) (.of_lists rfl rfl rfl))
      split
      · exact advances_vchanCookieComplete hi
      · exact .refl c
    · exact (advances_vchanCookieComplete hi).trans (.of_lists rfl rfl rfl)
    · exact .of_lists rfl rfl rfl

theorem advances_abortInterrupt (c : Chan) : c.Advances (abortInterrupt c) := by
  cases hi : c.descIssued with
  | nil =>
    rw [abortInterrupt_nil hi]
    exact .of_lists rfl rfl rfl
  | cons d rest =>
    rw [abortInterrupt_cons hi]
    exact (advances_vchanCookieComplete hi).trans (.of_lists rfl rfl rfl)

theorem advances_deviceIssuePending (c : Chan) : c.Advances (deviceIssuePending c).1 := by
  rcases deviceIssuePending_cases c with ⟨_,he⟩ | ⟨_,_,he⟩ | ⟨_,_,_,_,he⟩ <;> rw [he]
  · exact .refl c
  · exact advances_vchanIssuePending c
  · have hbusy : (vchanIssuePending c).Advances { vchanIssuePending c with status := .busy } :=
      .of_lists rfl rfl rfl
    exact (advances_vchanIssuePending c).trans (hbusy.trans (advances_startTransfer _))

theorem advances_deviceResume (c : Chan) : c.Advances (deviceResume c).1.1 := by
  rcases deviceResume_cases c with he | ⟨_,_,_,he⟩ <;> rw [he]
  · exact .refl c
  · have hbusy : c.Advances { c with status := .busy } := .of_lists rfl rfl rfl
    exact hbusy.trans (advances_startTransfer _)

theorem advances_devicePause (c : Chan) : c.Advances (devicePause c).1 := by
  rcases devicePause_cases c with he | ⟨_,_,_,he⟩ <;> rw [he] <;> exact .of_lists rfl rfl rfl

theorem advances_deviceTerminateAll (st : DmaStatus) (c : Chan) :
    c.Advances (deviceTerminateAll st c).1 := by
  rcases deviceTerminateAll_cases st c with ⟨_,he⟩ | ⟨_,_,he⟩ | ⟨_,_,_,he⟩ | ⟨_,_,_,he⟩ <;>
    rw [he] <;> exact .of_lists rfl rfl rfl

/-- The descriptors keep their order, and a new one comes last. -/
theorem step_advances {chip : Chip} {s t : State} {op : Op} (he : step chip s op = some t) :
    t.chan.line = s.chan.line ++ op.submits ∧
      s.chan.descCompleted <+: t.chan.descCompleted := by
  have hkept : ∀ {c : Chan}, s.chan.Advances c → c.line = s.chan.line ++ [] ∧
      s.chan.descCompleted <+: c.descCompleted :=
    fun h => ⟨h.line.trans (List.append_nil _).symm,h.completed⟩
  cases op with
  | prep x =>
    cases he
    rcases prep_cases chip x s with hr | ⟨_,_,hr⟩ <;> rw [hr] <;> exact hkept (.refl _)
  | submit vd =>
    obtain ⟨d,_,rfl,rfl⟩ := step_submit_some he
    exact ⟨by simp [Chan.line,txSubmit,Op.submits],List.prefix_rfl⟩
  | config c =>
    cases he
    exact hkept (.of_lists rfl rfl rfl)
  | issuePending =>
    cases he
    unfold State.issuePending
    split
    · exact hkept (advances_deviceIssuePending _)
    · exact hkept (.refl _)
  | pause =>
    cases he
    exact hkept (advances_devicePause _)
  | resume =>
    cases he
    exact hkept (advances_deviceResume _)
  | terminateAll st =>
    cases he
    exact hkept (advances_deviceTerminateAll st _)
  | finish irq =>
    obtain ⟨x,rest,_,rfl⟩ := step_finish_some he
    exact hkept (.refl _)
  | interrupt =>
    obtain ⟨x,irq,rest,_,rfl⟩ := step_interrupt_some he
    cases irq with
    | done => exact hkept (advances_doneInterrupt _)
    | abort => exact hkept (advances_abortInterrupt _)

/-! ## The cookies follow the line -/

/-- The cookies when the descriptors of `vds` were submitted and the first `done` of them
completed. -/
structure Cookies.Tracks (vds : List ℕ) (done : ℕ) (c : Cookies) : Prop where
  cookie : c.cookie = value cookiePeriod vds.length
  completed : c.completedCookie = value cookiePeriod done
  tx : ∀ k vd, done ≤ k → vds[k]? = some vd → c.tx vd = value cookiePeriod (k + 1)
  bug : c.bug = false

theorem tracks_init : dmaCookieInit.Tracks [] 0 :=
  ⟨by decide,by decide,fun _ _ _ h => by simp at h,rfl⟩

/-- After the largest `s32` comes `DMA_MIN_COOKIE`. -/
theorem assigned_cookie (n : ℕ) :
    (let cookie := s32 ((value cookiePeriod n : ℤ) + 1)
      if cookie < DMA_MIN_COOKIE then DMA_MIN_COOKIE else cookie) =
      value cookiePeriod (n + 1) := by
  have hpos : 0 < cookiePeriod := by decide
  have hle := value_le hpos n
  have hone := one_le_value (p := cookiePeriod) n
  have hperiod : cookiePeriod = 2147483647 := rfl
  rw [value_succ hpos]
  rcases Nat.lt_or_ge (value cookiePeriod n) cookiePeriod with hlt | hge
  · have hs : s32 ((value cookiePeriod n : ℤ) + 1) = (value cookiePeriod n : ℤ) + 1 :=
      Int.bmod_eq_of_le (by omega) (by omega)
    have hmin : ¬ (value cookiePeriod n : ℤ) + 1 < DMA_MIN_COOKIE := by
      rw [DMA_MIN_COOKIE]
      omega
    rw [hs,if_pos hlt,if_neg hmin]
    rfl
  · have hmax : value cookiePeriod n = cookiePeriod := le_antisymm hle hge
    rw [hmax]
    decide

theorem Cookies.Tracks.assign {vds : List ℕ} {done : ℕ} {c : Cookies} (h : c.Tracks vds done)
    {vd : ℕ} (hvd : vd ∉ vds) :
    (dmaCookieAssign vd c).Tracks (vds ++ [vd]) done ∧
      (dmaCookieAssign vd c).tx vd = value cookiePeriod (vds.length + 1) := by
  have hnew := assigned_cookie vds.length
  rw [← h.cookie] at hnew
  have hself : (dmaCookieAssign vd c).tx vd = value cookiePeriod (vds.length + 1) :=
    (Function.update_self _ _ _).trans hnew
  refine ⟨⟨?_,h.completed,fun k v hk hv => ?_,h.bug⟩,hself⟩
  · rw [List.length_append,List.length_singleton]
    exact hnew
  · rcases Nat.lt_or_ge k vds.length with hlt | hge
    · rw [List.getElem?_append_left hlt] at hv
      have hne : v ≠ vd := by
        rintro rfl
        exact hvd (List.mem_of_getElem? hv)
      exact (Function.update_of_ne hne _ _).trans (h.tx k v hk hv)
    · have hk' : k = vds.length := by
        have hlt := (List.getElem?_eq_some_iff.mp hv).1
        rw [List.length_append,List.length_singleton] at hlt
        omega
      subst hk'
      rw [List.getElem?_append_right le_rfl,Nat.sub_self] at hv
      obtain rfl := Option.some.inj hv
      exact hself

theorem Cookies.Tracks.complete {vds : List ℕ} {done : ℕ} {c : Cookies} (h : c.Tracks vds done)
    (hnodup : vds.Nodup) {vd : ℕ} (hvd : vds[done]? = some vd) :
    (dmaCookieComplete vd c).Tracks vds (done + 1) := by
  have htx := h.tx done vd le_rfl hvd
  have hone := one_le_value (p := cookiePeriod) (done + 1)
  refine ⟨h.cookie,htx,fun k v hk hv => ?_,?_⟩
  · have hne : v ≠ vd := by
      rintro rfl
      have hsame := (List.getElem?_inj (List.getElem?_eq_some_iff.mp hvd).1 hnodup).mp
        (hvd.trans hv.symm)
      omega
    exact (Function.update_of_ne hne _ _).trans (h.tx k v (Nat.le_of_succ_le hk) hv)
  · have hle : ¬ c.tx vd < DMA_MIN_COOKIE := by
      rw [htx,DMA_MIN_COOKIE]
      omega
    simp [dmaCookieComplete,h.bug,hle]

/-- The descriptors that are next in the line are completed one after the other. -/
theorem Cookies.Tracks.completes {vds : List ℕ} (hnodup : vds.Nodup) (ds : List Desc) :
    ∀ {done : ℕ} {c : Cookies}, c.Tracks vds done →
      ds.map Desc.vd <+: vds.drop done →
      (ds.foldl (fun c d => dmaCookieComplete d.vd c) c).Tracks vds (done + ds.length) := by
  induction ds with
  | nil => exact fun h _ => h
  | cons d ds ih =>
    intro done c h hnext
    obtain ⟨rest,hrest⟩ := hnext
    have hd : vds[done]? = some d.vd := by
      rw [← Nat.add_zero done,← List.getElem?_drop,← hrest]
      rfl
    have hds : ds.map Desc.vd <+: vds.drop (done + 1) := by
      refine ⟨rest,?_⟩
      rw [← List.tail_drop,← hrest]
      rfl
    have hall := ih (h.complete hnodup hd) hds
    rw [Nat.add_assoc,Nat.add_comm 1] at hall
    exact hall

theorem submits_cases (op : Op) : op.submits = [] ∨ ∃ vd, op.submits = [vd] := by
  cases op with
  | submit vd => exact Or.inr ⟨vd,rfl⟩
  | _ => exact Or.inl rfl

theorem State.Distinct.line_nodup {s : State} (h : s.Distinct) : s.chan.line.Nodup := by
  have hchan : s.chan.vds.Nodup := (List.nodup_append.mp h.nodup).2.1
  refine (List.Perm.nodup_iff (List.Perm.map _ ?_)).mp hchan
  rw [Chan.queued,List.append_assoc s.chan.descCompleted]
  refine List.perm_append_comm.trans ?_
  exact List.perm_append_comm.append_left _

structure Cookied (x : Tracked) : Prop where
  distinct : x.engine.Distinct
  tracks : x.cookies.Tracks x.engine.chan.line x.engine.chan.descCompleted.length
  returned : x.returned =
    (List.range x.engine.chan.line.length).map fun k => (value cookiePeriod (k + 1) : ℤ)

theorem cookied_init (id : ℕ) (dir : Dir) (llMax : ℕ) : Cookied (Tracked.init id dir llMax) :=
  ⟨distinct_init id dir llMax,tracks_init,rfl⟩

theorem step_cookied {chip : Chip} {x y : Tracked} {op : Op} (h : Cookied x)
    (he : x.step chip op = some y) : Cookied y := by
  obtain ⟨t,ht,rfl⟩ := Option.map_eq_some_iff.mp he
  have hdistinct := step_distinct h.distinct ht
  have hnodup := hdistinct.line_nodup
  obtain ⟨hline,new,hnew⟩ := step_advances ht
  have hassign : (op.submits.foldl (fun c vd => dmaCookieAssign vd c) x.cookies).Tracks
      t.chan.line x.engine.chan.descCompleted.length ∧
      x.returned ++ op.submits.map (op.submits.foldl (fun c vd => dmaCookieAssign vd c)
        x.cookies).tx =
      (List.range t.chan.line.length).map fun k => (value cookiePeriod (k + 1) : ℤ) := by
    rw [hline] at hnodup ⊢
    rw [h.returned]
    rcases submits_cases op with hop | ⟨vd,hop⟩ <;> rw [hop] at hnodup ⊢
    · rw [List.append_nil]
      exact ⟨h.tracks,List.append_nil _⟩
    · have hvd : vd ∉ x.engine.chan.line := by
        intro hmem
        exact (List.nodup_append.mp hnodup).2.2 vd hmem vd List.mem_cons_self rfl
      obtain ⟨htracks,hself⟩ := h.tracks.assign hvd
      refine ⟨htracks,?_⟩
      rw [List.length_append,List.length_singleton,List.range_succ,List.map_append,
        List.foldl_cons,List.foldl_nil,List.map_singleton,List.map_singleton,hself]
  have hlen : t.chan.descCompleted.length = x.engine.chan.descCompleted.length + new.length := by
    rw [← hnew,List.length_append]
  refine ⟨hdistinct,?_,hassign.2⟩
  have hnext : new.map Desc.vd <+:
      t.chan.line.drop x.engine.chan.descCompleted.length := by
    rw [Chan.line,← hnew,List.append_assoc,List.append_assoc,List.map_append,
      List.drop_left' (List.length_map _),List.map_append]
    exact List.prefix_append _ _
  have hall := hassign.1.completes hnodup new hnext
  rw [← hlen] at hall
  rw [← hnew] at hall
  rw [← hnew,List.drop_left]
  exact hall

/-! ## The answers -/

/-- What `dma_async_is_complete` tells of a cookie, given the last completed and the last used
one. -/
def TellsWithin (isComplete : ℤ → ℤ → ℤ → TxStatus) : Prop :=
  ∀ v u w : ℕ, v ∈ Set.Icc 1 cookiePeriod → u ∈ Set.Icc 1 cookiePeriod →
    w ∈ Set.Icc 1 cookiePeriod →
    isComplete v u w = if Within u w v then .inProgress else .complete

/-- The answer that is due for the descriptor itself. -/
def Tracked.answer (x : Tracked) (vd : ℕ) (wanted : Bool) : TxStatus × Option TxState :=
  let completed := x.engine.chan.descCompleted.map Desc.vd
  let r := deviceTxStatus (if vd ∈ completed then .complete else .inProgress) vd x.engine.chan
  (r.1,if wanted then some ⟨(x.returned.take completed.length).getLastD DMA_MIN_COOKIE,
    x.returned.getLastD DMA_MIN_COOKIE,r.2,0⟩ else none)

theorem last_returned (n : ℕ) :
    ((List.range n).map fun k => (value cookiePeriod (k + 1) : ℤ)).getLastD DMA_MIN_COOKIE =
      value cookiePeriod n := by
  cases n with
  | zero => rfl
  | succ n =>
    rw [List.range_succ,List.map_append,List.map_singleton]
    exact List.getLastD_concat

theorem Cookied.value_of {x : Tracked} (h : Cookied x) {k : ℕ} {cookie : ℤ}
    (hk : x.returned[k]? = some cookie) : cookie = value cookiePeriod (k + 1) := by
  rw [h.returned,List.getElem?_map] at hk
  obtain ⟨i,hi,rfl⟩ := Option.map_eq_some_iff.mp hk
  obtain ⟨_,rfl⟩ := List.getElem?_eq_some_iff.mp hi
  rw [List.getElem_range]

theorem Cookied.last {x : Tracked} (h : Cookied x) :
    (x.returned.take (x.engine.chan.descCompleted.map Desc.vd).length).getLastD DMA_MIN_COOKIE =
      x.cookies.completedCookie ∧ x.returned.getLastD DMA_MIN_COOKIE = x.cookies.cookie := by
  rw [h.returned,h.tracks.completed,h.tracks.cookie,← List.map_take,List.take_range,List.length_map]
  have hle : x.engine.chan.descCompleted.length ≤ x.engine.chan.line.length := by
    simp [Chan.line]
  rw [Nat.min_eq_left hle]
  exact ⟨last_returned _,last_returned _⟩

/-- The cookies of the descriptors that are issued are told apart. -/
theorem Cookied.found {x : Tracked} (h : Cookied x) {k vd : ℕ} {cookie : ℤ}
    (hvd : x.engine.chan.line[k]? = some vd) (hcookie : cookie = value cookiePeriod (k + 1))
    (hk : x.engine.chan.descCompleted.length ≤ k)
    (hwindow : x.engine.chan.line.length < x.engine.chan.descCompleted.length + cookiePeriod) :
    vchanFindDesc cookie x.cookies x.engine.chan =
      x.engine.chan.descIssued.find? fun d => d.vd == vd := by
  apply List.find?_congr
  intro d hd
  obtain ⟨i,hi⟩ := List.mem_iff_getElem?.mp hd
  have hline : x.engine.chan.line[x.engine.chan.descCompleted.length + i]? = some d.vd := by
    rw [Chan.line,List.getElem?_map,List.append_assoc,List.getElem?_append_right (Nat.le_add_right _ _),
      Nat.add_sub_cancel_left,List.getElem?_append_left (List.getElem?_eq_some_iff.mp hi).1,hi]
    rfl
  have htx := h.tracks.tx _ _ (Nat.le_add_right _ i) hline
  have hlt := (List.getElem?_eq_some_iff.mp hline).1
  have hltk := (List.getElem?_eq_some_iff.mp hvd).1
  have hiff : x.cookies.tx d.vd = cookie ↔ d.vd = vd := by
    rw [htx,hcookie]
    constructor
    · intro heq
      have hsame := value_inj (Int.ofNat.inj heq) (by omega) (by omega)
      rw [Nat.add_right_cancel_iff.mp hsame,hvd] at hline
      exact (Option.some.inj hline).symm
    · rintro rfl
      rw [(List.getElem?_inj hlt h.distinct.line_nodup).mp (hline.trans hvd.symm)]
  rw [Bool.eq_iff_iff,beq_iff_eq,beq_iff_eq]
  exact hiff

theorem Cookied.completed_iff {x : Tracked} (h : Cookied x) {k vd : ℕ}
    (hvd : x.engine.chan.line[k]? = some vd) :
    vd ∈ x.engine.chan.descCompleted.map Desc.vd ↔ k < x.engine.chan.descCompleted.length := by
  have hline : x.engine.chan.line = x.engine.chan.descCompleted.map Desc.vd ++
      (x.engine.chan.descIssued ++ x.engine.chan.descSubmitted).map Desc.vd := by
    rw [Chan.line,List.append_assoc,List.map_append]
  have hlen : (x.engine.chan.descCompleted.map Desc.vd).length =
    x.engine.chan.descCompleted.length := List.length_map _
  constructor
  · intro hmem
    obtain ⟨i,hi⟩ := List.mem_iff_getElem?.mp hmem
    have hlt := (List.getElem?_eq_some_iff.mp hi).1
    rw [← List.getElem?_append_left hlt,← hline] at hi
    have hsame := (List.getElem?_inj (List.getElem?_eq_some_iff.mp hvd).1
      h.distinct.line_nodup).mp (hvd.trans hi.symm)
    omega
  · intro hlt
    rw [hline,List.getElem?_append_left (by rw [hlen]; exact hlt)] at hvd
    exact List.mem_of_getElem? hvd

theorem Cookied.answers {isComplete : ℤ → ℤ → ℤ → TxStatus} (hk : TellsWithin isComplete)
    {x : Tracked} (h : Cookied x) {k vd : ℕ} {cookie : ℤ} (wanted : Bool)
    (hvd : x.engine.chan.line[k]? = some vd) (hcookie : x.returned[k]? = some cookie)
    (hsince : x.returned.length ≤ k + cookiePeriod)
    (hwindow : x.returned.length < x.engine.chan.descCompleted.length + cookiePeriod) :
    dwEdmaDeviceTxStatus isComplete cookie wanted x.engine.chan x.cookies =
      x.answer vd wanted := by
  have hlen : x.returned.length = x.engine.chan.line.length := by
    rw [h.returned,List.length_map,List.length_range]
  rw [hlen] at hsince hwindow
  have hltk := (List.getElem?_eq_some_iff.mp hvd).1
  have hvalue := h.value_of hcookie
  have hle : x.engine.chan.descCompleted.length ≤ x.engine.chan.line.length := by
    simp [Chan.line]
  have hpos : 0 < cookiePeriod := by decide
  have hin : ∀ n, value cookiePeriod n ∈ Set.Icc 1 cookiePeriod :=
    fun n => ⟨one_le_value n,value_le hpos n⟩
  have hstatus : isComplete cookie x.cookies.completedCookie x.cookies.cookie =
      if vd ∈ x.engine.chan.descCompleted.map Desc.vd then .complete else .inProgress := by
    rw [hvalue,h.tracks.completed,h.tracks.cookie,hk _ _ _ (hin _) (hin _) (hin _)]
    have hiff := within_iff (k := k + 1) hle hwindow (by omega) (by omega)
    by_cases hdone : vd ∈ x.engine.chan.descCompleted.map Desc.vd
    · have hnot := (h.completed_iff hvd).mp hdone
      rw [if_pos hdone,if_neg]
      intro hwithin
      have := hiff.mp hwithin
      omega
    · have hge := mt (h.completed_iff hvd).mpr hdone
      rw [if_neg hdone,if_pos]
      exact hiff.mpr (by omega)
  obtain ⟨hlast,hused⟩ := h.last
  unfold dwEdmaDeviceTxStatus Tracked.answer deviceTxStatus dmaCookieStatus
  dsimp only
  rw [hstatus,hlast,hused]
  by_cases hdone : vd ∈ x.engine.chan.descCompleted.map Desc.vd
  · rw [if_pos hdone,if_pos rfl,if_pos rfl]
  · have hge := mt (h.completed_iff hvd).mpr hdone
    have hrunning : ¬ TxStatus.inProgress = .complete := by decide
    rw [if_neg hdone,if_neg hrunning,if_neg hrunning,
      h.found hvd hvalue (Nat.le_of_not_lt hge) hwindow]
    cases wanted <;> rfl

/-- `dma_async_is_complete`, for a concrete run. -/
def dmaAsyncIsComplete (cookie lastComplete lastUsed : ℤ) : TxStatus :=
  if lastComplete ≤ lastUsed then
    if cookie ≤ lastComplete ∨ cookie > lastUsed then .complete else .inProgress
  else if cookie ≤ lastComplete ∧ cookie > lastUsed then .complete else .inProgress

theorem dmaAsyncIsComplete_tells : TellsWithin dmaAsyncIsComplete := by
  intro v u w _ _ _
  by_cases huw : u ≤ w
  · have hwithin : Within u w v ↔ u < v ∧ v ≤ w := by rw [Within,if_pos huw]
    rw [dmaAsyncIsComplete,if_pos (by omega)]
    by_cases hv : u < v ∧ v ≤ w
    · rw [if_neg (by omega),if_pos (hwithin.mpr hv)]
    · rw [if_pos (by omega),if_neg (mt hwithin.mp hv)]
  · have hwithin : Within u w v ↔ u < v ∨ v ≤ w := by rw [Within,if_neg huw]
    rw [dmaAsyncIsComplete,if_neg (by omega)]
    by_cases hv : u < v ∨ v ≤ w
    · rw [if_neg (by omega),if_pos (hwithin.mpr hv)]
    · rw [if_pos (by omega),if_neg (mt hwithin.mp hv)]

/-- Two requests, of which the first is completed and the second has one of its two chunks
started. -/
def twoRequests : List Op :=
  [.config ⟨100,0⟩,.prep fourBytes,.submit 0,
    .prep ⟨.devToMem,.scatterGather [⟨4096,4⟩,⟨8192,8⟩] 2⟩,.submit 1,.issuePending,
    .finish .done,.interrupt]

theorem twoRequests_runs :
    (exec (Tracked.step plainChip) (Tracked.init 0 .write 1) twoRequests).isSome = true := by
  decide +kernel

end AkidaEdma.DwEdma
