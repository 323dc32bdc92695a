import AkidaEdma.Engine.Queue

/-! # Channels that never stall

A busy channel waits for an interrupt that will come, and an idle one has nothing left
to start. Four branches of the code break this; along a run whose steps avoid them it
is an invariant, and each of them breaks it at once.
-/
namespace AkidaEdma.DwEdma

/-- A `busy` channel has a chunk of the head outstanding, an `idle` one no request pending and
no chunk that waits to be started. -/
structure NoStall (s : State) : Prop where
  busy : s.chan.status = .busy →
    ∃ d rest, s.chan.descIssued = d :: rest ∧ ∃ x ∈ s.hw.outstanding, x.vd = d.vd
  idle : s.chan.status = .idle →
    s.chan.request = .none ∧ ∀ d ∈ s.chan.descIssued, d.chunk = []

/-- The value handed to the terminate operation is the one the hardware reports. -/
def RealStatus (s : State) (op : Op) : Prop := ∀ st, op = .terminateAll st → st = s.hw.chStatus

/-- The branches that stall a channel are not taken: resuming a channel that was paused
on the last chunk of its head, stopping or aborting with another descriptor behind the
head, terminating to idle with a request pending or chunks unstarted, and issuing on an
idle channel whose head has neither a chunk left nor one outstanding. -/
def Sound (s : State) : Op → Prop
  | .issuePending => s.chan.configured = true → s.chan.request = .none →
      s.chan.status = .idle → ∀ d rest, s.chan.descIssued ++ s.chan.descSubmitted = d :: rest →
        d.chunk ≠ [] ∨ s.hw.outstanding ≠ []
  | .resume => s.chan.configured = true → s.chan.status = .pause → s.chan.request = .none →
      ∃ d rest, s.chan.descIssued = d :: rest ∧ d.chunk ≠ []
  | .terminateAll st => s.chan.configured = true →
      (s.chan.status = .pause → ∀ d ∈ s.chan.descIssued, d.chunk = []) ∧
      (s.chan.status = .busy → st = .complete →
        s.chan.request = .none ∧ ∀ d ∈ s.chan.descIssued, d.chunk = [])
  | .interrupt => ∀ x irq rest, s.hw.pending = (x,irq) :: rest →
      irq = .abort ∨ s.chan.request = .stop → s.chan.descIssued.tail = []
  | _ => True

/-- The invariant of sound runs. An idle channel may still have the interrupt of its
exhausted head to come, after a terminate that found the hardware stopped. -/
structure Live (s : State) : Prop where
  wf : s.chan.Wf
  out : ∀ x xs, s.hw.outstanding = x :: xs →
    xs = [] ∧ ∃ d rest, s.chan.descIssued = d :: rest ∧ d.vd = x.vd
  busy : s.chan.status = .busy → s.hw.outstanding ≠ []
  idle : s.chan.status = .idle →
    s.chan.request = .none ∧ ∀ d ∈ s.chan.descIssued, d.chunk = []
  pause : s.chan.status = .pause → s.chan.request = .none ∧ s.hw.outstanding = []

theorem Live.noStall {s : State} (h : Live s) : NoStall s := by
  refine ⟨fun hb => ?_,h.idle⟩
  cases ho : s.hw.outstanding with
  | nil => exact absurd ho (h.busy hb)
  | cons x xs =>
    obtain ⟨_,d,rest,hi,hx⟩ := h.out x xs ho
    exact ⟨d,rest,hi,x,List.mem_cons_self,hx.symm⟩

theorem live_init (id : ℕ) (dir : Dir) (llMax : ℕ) : Live (State.init id dir llMax) where
  wf := wf_init id dir llMax
  out := by simp [State.init,Hw.outstanding]
  busy := by simp [State.init]
  idle := by simp [State.init]
  pause := by simp [State.init]

/-- An invariant state stays one when only fields are changed that `Live` does not read. -/
theorem Live.of_chan {s t : State} (h : Live s) (hout : t.hw.outstanding = s.hw.outstanding)
    (hi : t.chan.descIssued = s.chan.descIssued) (hwf : t.chan.Wf)
    (hst : t.chan.status = s.chan.status) (hreq : t.chan.request = s.chan.request) : Live t where
  wf := hwf
  out := by rw [hout,hi]; exact h.out
  busy := by rw [hout,hst]; exact h.busy
  idle := by rw [hi,hst,hreq]; exact h.idle
  pause := by rw [hout,hst,hreq]; exact h.pause

/-- A busy state is live when its one outstanding chunk belongs to the head. -/
theorem live_of_busy {s : State} {x : Started} {d : Desc} {l : List Desc} (hwf : s.chan.Wf)
    (hst : s.chan.status = .busy) (ho : s.hw.outstanding = [x])
    (hi : s.chan.descIssued = d :: l) (hx : d.vd = x.vd) : Live s where
  wf := hwf
  out := by
    intro y ys hy
    rw [ho] at hy
    cases hy
    exact ⟨rfl,d,l,hi,hx⟩
  busy := by simp [ho]
  idle := by simp [hst]
  pause := by simp [hst]

theorem live_start {s : State} {c : Chan} {d : Desc} {rest : List Desc} (hwf : c.Wf)
    (hst : c.status = .busy) (ho : s.hw.outstanding = []) (hi : c.descIssued = d :: rest)
    (hd : d.chunk ≠ []) : Live (s.call (startTransfer c)) := by
  obtain ⟨k,ks,hk⟩ := List.exists_cons_of_ne_nil hd
  have hs := startTransfer_cons hi hk
  refine live_of_busy (x := ⟨d.vd,k,d.xferSz == 0⟩) (d := d.consume k ks) (l := rest)
    (wf_startTransfer hwf) ?_ ?_ ?_ rfl
  · rw [call_chan,startTransfer_status,hst]
  · rw [call_outstanding,ho,hs]
    rfl
  · rw [call_chan,hs]

theorem live_issuePending {s : State} (h : Live s) (hg : Sound s .issuePending) :
    Live s.issuePending := by
  unfold State.issuePending
  have hwf := wf_vchanIssuePending h.wf
  rcases deviceIssuePending_cases s.chan with ⟨hc,_⟩ | ⟨hc,hno,he⟩ | ⟨hc,hne,hreq,hidle,he⟩
  · rw [hc]
    exact h
  · rw [if_pos hc,he]
    refine ⟨hwf,?_,?_,?_,?_⟩
    · intro x xs ho
      obtain ⟨hxs,d,rest,hi,hx⟩ := h.out x xs (by simpa using ho)
      exact ⟨hxs,d,rest ++ s.chan.descSubmitted,by simp [vchanIssuePending,hi],hx⟩
    · intro hb
      simpa using h.busy hb
    · intro hidle
      have hreq := (h.idle hidle).1
      refine ⟨hreq,?_⟩
      have hnil : s.chan.descIssued ++ s.chan.descSubmitted = [] := by
        by_contra hne
        exact hno ⟨hne,hreq,hidle⟩
      intro d hd
      change d ∈ s.chan.descIssued ++ s.chan.descSubmitted at hd
      rw [hnil] at hd
      exact absurd hd List.not_mem_nil
    · intro hp
      obtain ⟨hreq,ho⟩ := h.pause hp
      exact ⟨hreq,by simpa using ho⟩
  · rw [if_pos hc,he]
    obtain ⟨d,rest,hi⟩ := List.exists_cons_of_ne_nil hne
    -- an outstanding chunk belongs to the head, which then has no chunks left
    have hhead : ∀ x xs, s.hw.outstanding = x :: xs → xs = [] ∧ d.vd = x.vd ∧ d.chunk = [] := by
      intro x xs ho
      obtain ⟨hxs,e,es,hie,hx⟩ := h.out x xs ho
      rw [hie,List.cons_append] at hi
      obtain ⟨rfl,_⟩ := List.cons.inj hi
      exact ⟨hxs,hx,(h.idle hidle).2 e (by rw [hie]; exact List.mem_cons_self)⟩
    by_cases ho : s.hw.outstanding = []
    · have hd := (hg hc hreq hidle d rest hi).resolve_right (fun hn => hn ho)
      exact live_start (hwf.of_lists rfl rfl) rfl ho hi hd
    · obtain ⟨x,xs,hx⟩ := List.exists_cons_of_ne_nil ho
      obtain ⟨rfl,hvd,hd⟩ := hhead x xs hx
      have hstart := startTransfer_exhausted
        (c := { vchanIssuePending s.chan with status := .busy }) hi hd
      rw [hstart]
      exact live_of_busy (hwf.of_lists rfl rfl) rfl (by simpa using hx) hi hvd

theorem live_resume {s : State} (h : Live s) (hg : Sound s .resume) : Live s.resume := by
  unfold State.resume
  rcases deviceResume_cases s.chan with he | ⟨hc,hst,hreq,he⟩ <;> rw [he]
  · exact h.of_chan (by simp) rfl h.wf rfl rfl
  · obtain ⟨d,rest,hi,hd⟩ := hg hc hst hreq
    exact live_start (h.wf.of_lists rfl rfl) rfl (h.pause hst).2 hi hd

theorem live_pause {s : State} (h : Live s) :
    Live { s with chan := (devicePause s.chan).1 } := by
  rcases devicePause_cases s.chan with he | ⟨_,hst,_,he⟩ <;> rw [he]
  · exact h
  · exact ⟨h.wf.of_lists rfl rfl,h.out,fun _ => h.busy hst,by simp [hst],by simp [hst]⟩

theorem live_terminateAll {s : State} {st : DmaStatus} (h : Live s)
    (hg : Sound s (.terminateAll st)) :
    Live { s with chan := (deviceTerminateAll st s.chan).1 } := by
  have hwf := wf_deviceTerminateAll h.wf st
  rcases deviceTerminateAll_cases st s.chan with ⟨_,he⟩ | ⟨hc,hst,he⟩ | ⟨hc,hst,hcomp,he⟩ | ⟨_,hst,_,he⟩
  · rw [he]
    exact h
  · rw [he] at hwf ⊢
    refine ⟨hwf,h.out,by simp,fun _ => ?_,by simp⟩
    cases hs : s.chan.status with
    | idle => exact h.idle hs
    | pause => exact ⟨(h.pause hs).1,(hg hc).1 hs⟩
    | busy => exact absurd hs hst
  · rw [he] at hwf ⊢
    exact ⟨hwf,h.out,by simp,fun _ => (hg hc).2 hst hcomp,by simp⟩
  · rw [he] at hwf ⊢
    exact ⟨hwf,h.out,fun _ => h.busy hst,by simp [hst],by simp [hst]⟩

theorem live_finish {s : State} {irq : Irq} {x : Started} {rest : List Started} (h : Live s)
    (hr : s.hw.running = x :: rest) :
    Live { s with hw := ⟨rest,s.hw.pending ++ [(x,irq)],some irq⟩ } := by
  refine h.of_chan ?_ rfl h.wf rfl rfl
  simp [Hw.outstanding,hr]

/-- The interrupt of the only outstanding chunk leaves nothing outstanding, and its
descriptor is the head. -/
theorem Live.pending {s : State} (h : Live s) {x : Started} {irq : Irq}
    {rest : List (Started × Irq)} (hp : s.hw.pending = (x,irq) :: rest) :
    rest = [] ∧ s.hw.running = [] ∧ ∃ d ds, s.chan.descIssued = d :: ds ∧ d.vd = x.vd := by
  have ho : s.hw.outstanding = x :: (rest.map Prod.fst ++ s.hw.running) := by
    simp [Hw.outstanding,hp]
  obtain ⟨hnil,d,ds,hi,hx⟩ := h.out x _ ho
  rw [List.append_eq_nil_iff,List.map_eq_nil_iff] at hnil
  exact ⟨hnil.1,hnil.2,d,ds,hi,hx⟩

theorem live_of_quiet {s : State} (hwf : s.chan.Wf) (ho : s.hw.outstanding = [])
    (hst : s.chan.status ≠ .busy) (hreq : s.chan.request = .none)
    (hi : s.chan.status = .idle → ∀ d ∈ s.chan.descIssued, d.chunk = []) : Live s where
  wf := hwf
  out := by simp [ho]
  busy hb := absurd hb hst
  idle hidle := ⟨hreq,hi hidle⟩
  pause _ := ⟨hreq,ho⟩

theorem live_continueTransfer {s : State} {d : Desc} {ds : List Desc} (hwf : s.chan.Wf)
    (ho : s.hw.outstanding = []) (hreq : s.chan.request = .none) (hi : s.chan.descIssued = d :: ds) :
    Live (s.call (continueTransfer d ds s.chan)) := by
  have hzero := (hwf.issued d (by rw [hi]; exact List.mem_cons_self)).alloc_eq_zero
  by_cases hd : d.chunk = []
  · have hwf' := wf_vchanCookieComplete hwf hi
    simp only [continueTransfer,if_pos (hzero.mpr hd)]
    cases hds : ds with
    | nil =>
      rw [startTransfer_nil (by simp [vchanCookieComplete])]
      refine live_of_quiet ?_ (by simpa using ho) (by simp) hreq (by simp [vchanCookieComplete])
      exact (hds ▸ hwf').of_lists rfl rfl
    | cons e es =>
      obtain ⟨k,ks,hk⟩ := List.exists_cons_of_ne_nil
        (hwf.rest hi e (by rw [hds]; exact List.mem_cons_self)).2
      have hs := startTransfer_cons (c := vchanCookieComplete d (e :: es) s.chan) rfl hk
      rw [hs]
      refine live_of_busy (x := ⟨e.vd,k,e.xferSz == 0⟩) (d := e.consume k ks) (l := es)
        ?_ rfl (by simp [ho]) rfl rfl
      have hw := wf_startTransfer (hds ▸ hwf')
      rw [hs] at hw
      exact hw.of_lists rfl rfl
  · obtain ⟨k,ks,hk⟩ := List.exists_cons_of_ne_nil hd
    simp only [continueTransfer,if_neg (fun hz => hd (hzero.mp hz))]
    have hs := startTransfer_cons hi hk
    rw [hs]
    refine live_of_busy (x := ⟨d.vd,k,d.xferSz == 0⟩) (d := d.consume k ks) (l := ds)
      ?_ rfl (by simp [ho]) rfl rfl
    have hw := wf_startTransfer hwf
    rw [hs] at hw
    exact hw.of_lists rfl rfl

theorem live_interrupt {s : State} {x : Started} {irq : Irq} {rest : List (Started × Irq)}
    (h : Live s) (hg : Sound s .interrupt) (hp : s.hw.pending = (x,irq) :: rest) :
    Live (s.interrupt x irq rest) := by
  obtain ⟨rfl,hrun,d,ds,hi,_⟩ := h.pending hp
  have hsound := hg x irq [] hp
  have ho : (Hw.mk s.hw.running [] s.hw.last).outstanding = [] := by simp [Hw.outstanding,hrun]
  cases irq with
  | abort =>
    have hds : ds = [] := by simpa [hi] using hsound (Or.inl rfl)
    subst hds
    simp only [State.interrupt,abortInterrupt_cons hi]
    refine live_of_quiet ?_ (by simpa using ho) (by simp) rfl (by simp [vchanCookieComplete])
    exact (wf_vchanCookieComplete h.wf hi).of_lists rfl rfl
  | done =>
    simp only [State.interrupt]
    rcases doneInterrupt_cons hi with ⟨hreq,he⟩ | ⟨hreq,he⟩ | ⟨hreq,he⟩ <;> rw [he]
    · exact live_continueTransfer (s := State.record _ _) h.wf (by simpa using ho) hreq hi
    · have hds : ds = [] := by simpa [hi] using hsound (Or.inr hreq)
      subst hds
      refine live_of_quiet ?_ (by simpa using ho) (by simp) rfl (by simp [vchanCookieComplete])
      exact (wf_vchanCookieComplete h.wf hi).of_lists rfl rfl
    · exact live_of_quiet (h.wf.of_lists rfl rfl) (by simpa using ho) (by simp) rfl (by simp)

/-- Every sound operation keeps the channel live. -/
theorem step_live {chip : Chip} {s t : State} {op : Op} (h : Live s) (hprep : s.Prepared)
    (hg : Sound s op) (he : step chip s op = some t) : Live t := by
  have hwf := step_wf h.wf hprep he
  cases op with
  | config c => cases he; exact h.of_chan rfl rfl hwf rfl rfl
  | prep x =>
    cases he
    rcases prep_cases chip x s with he | ⟨d,_,he⟩ <;> rw [he]
    · exact h
    · exact h.of_chan rfl rfl h.wf rfl rfl
  | submit vd =>
    obtain ⟨d,_,_,rfl⟩ := step_submit_some he
    exact h.of_chan rfl rfl hwf rfl rfl
  | issuePending => cases he; exact live_issuePending h hg
  | pause => cases he; exact live_pause h
  | resume => cases he; exact live_resume h hg
  | terminateAll st => cases he; exact live_terminateAll h hg
  | finish irq =>
    obtain ⟨x,rest,hr,rfl⟩ := step_finish_some he
    exact live_finish h hr
  | interrupt =>
    obtain ⟨x,irq,rest,hp,rfl⟩ := step_interrupt_some he
    exact live_interrupt h hg hp

/-! ## The four branches do stall the channel -/

theorem sound_of_issuePending {s : State} (hn : NoStall s.issuePending) :
    Sound s .issuePending := by
  intro hc hreq hidle d rest hi
  by_contra hbad
  obtain ⟨hd,ho⟩ := not_or.mp hbad
  have hstart := startTransfer_exhausted
    (c := { vchanIssuePending s.chan with status := .busy }) hi (not_not.mp hd)
  rcases deviceIssuePending_cases s.chan with ⟨hc',_⟩ | ⟨_,hno,_⟩ | ⟨_,_,_,_,he⟩
  · rw [hc] at hc'
    contradiction
  · exact hno ⟨by rw [hi]; exact List.cons_ne_nil d rest,hreq,hidle⟩
  · have ht : s.issuePending = (s.record (.issue s.chan.descSubmitted)).call
        ({ vchanIssuePending s.chan with status := .busy },none) := by
      rw [State.issuePending,if_pos hc,he,hstart]
    rw [ht] at hn
    obtain ⟨_,_,_,x,hx,_⟩ := hn.busy rfl
    have hnil : s.hw.outstanding = [] := not_not.mp ho
    simp [hnil] at hx

theorem sound_of_resume {s : State} (h : Live s) (hn : NoStall s.resume) : Sound s .resume := by
  intro hc hst hreq
  rcases deviceResume_cases s.chan with he | ⟨_,_,_,he⟩
  · simp [deviceResume,hc,hst,hreq,EPERM] at he
  · rcases startTransfer_cases { s.chan with status := .busy } with
      ⟨hs,_⟩ | ⟨d,rest,c,cs,hi,hd,_⟩
    · rw [State.resume,he,hs] at hn
      obtain ⟨_,_,_,x,hx,_⟩ := hn.busy rfl
      simp [(h.pause hst).2] at hx
    · exact ⟨d,rest,hi,by rw [hd]; exact List.cons_ne_nil c cs⟩

theorem sound_of_terminateAll {s : State} {st : DmaStatus}
    (hn : NoStall { s with chan := (deviceTerminateAll st s.chan).1 }) :
    Sound s (.terminateAll st) := by
  intro hc
  rcases deviceTerminateAll_cases st s.chan with
    ⟨hc',_⟩ | ⟨_,hst,he⟩ | ⟨_,hst,hcomp,he⟩ | ⟨_,hst,hne,he⟩
  · rw [hc] at hc'
    contradiction
  · rw [he] at hn
    exact ⟨fun _ => (hn.idle rfl).2,fun hb => absurd hb hst⟩
  · rw [he] at hn
    exact ⟨fun _ => (hn.idle rfl).2,fun _ _ => hn.idle rfl⟩
  · exact ⟨fun hp => by simp [hst] at hp,fun _ hcomp => absurd hcomp hne⟩

theorem sound_of_interrupt {s : State} (h : Live s) {x : Started} {irq : Irq}
    {rest : List (Started × Irq)} (hp : s.hw.pending = (x,irq) :: rest)
    (hn : NoStall (s.interrupt x irq rest)) : Sound s .interrupt := by
  intro x' irq' rest' hp' hbranch
  rw [hp] at hp'
  cases hp'
  obtain ⟨_,_,d,ds,hi,_⟩ := h.pending hp
  -- both branches leave the channel idle with the head removed
  have hidle : (s.interrupt x irq rest).chan.status = .idle ∧
      (s.interrupt x irq rest).chan.descIssued = ds := by
    cases irq with
    | abort => simp [State.interrupt,abortInterrupt_cons hi,vchanCookieComplete]
    | done =>
      have hreq : s.chan.request = .stop := hbranch.resolve_left (by decide)
      simp [State.interrupt,doneInterrupt_stop hi hreq,vchanCookieComplete]
  have hnil : ds = [] := by
    cases hds : ds with
    | nil => rfl
    | cons e es =>
      have he : e ∈ ds := by rw [hds]; exact List.mem_cons_self
      have hchunk := (hn.idle hidle.1).2 e (by rw [hidle.2]; exact he)
      exact absurd hchunk (h.wf.rest hi e he).2
  rw [hi,List.tail_cons,hnil]

/-- A step after which `NoStall` holds was a sound one. -/
theorem sound_of_noStall {chip : Chip} {s t : State} {op : Op} (h : Live s)
    (he : step chip s op = some t) (hn : NoStall t) : Sound s op := by
  cases op with
  | issuePending => cases he; exact sound_of_issuePending hn
  | resume => cases he; exact sound_of_resume h hn
  | terminateAll st => cases he; exact sound_of_terminateAll hn
  | interrupt =>
    obtain ⟨x,irq,rest,hp,rfl⟩ := step_interrupt_some he
    exact sound_of_interrupt h hp hn
  | config c => trivial
  | prep x => trivial
  | submit vd => trivial
  | pause => trivial
  | finish irq => trivial

open Transition

/-- Along a run `NoStall` holds exactly when every step of it is sound. -/
theorem noStall_along_iff_sound {chip : Chip} {id : ℕ} {dir : Dir} {llMax : ℕ} {t : State}
    {ops : List Op} (hr : Runs (step chip) RealStatus (State.init id dir llMax) ops t) :
    Along (step chip) NoStall (State.init id dir llMax) ops ↔
      Guarded (step chip) Sound (State.init id dir llMax) ops := by
  refine along_iff_guarded (I := fun s => Live s ∧ s.Prepared) (fun s h => h.1.noStall)
    ?_ ?_ hr ⟨live_init id dir llMax,by simp [State.Prepared,State.init]⟩
  · rintro s op t ⟨hl,hp⟩ _ hg he
    exact ⟨step_live hl hp hg he,step_prepared hp he⟩
  · rintro s op t ⟨hl,_⟩ _ he hn
    exact sound_of_noStall hl he hn

/-- A pause that meets the last chunk of the head, and the resume after it. -/
def pausedOnLast : List Op :=
  [.config ⟨0,0⟩,.prep fourBytes,.submit 0,.issuePending,.pause,.finish .done,.interrupt,.resume]

theorem pausedOnLast_realStatus (s : State) : ∀ op ∈ pausedOnLast, RealStatus s op := by
  rintro op hop st rfl
  simp [pausedOnLast] at hop

/-- A pause between the two chunks of the head, with another descriptor behind it. -/
def pausedBetween : List Op :=
  [.config ⟨0,0⟩,.prep ⟨.devToMem,.scatterGather [⟨4096,16⟩,⟨8192,8⟩] 2⟩,.prep fourBytes,.submit 0,
    .submit 1,.issuePending,.pause,.finish .done,.interrupt,.resume,.finish .done,.interrupt,
    .finish .done,.interrupt]

theorem pausedBetween_realStatus (s : State) : ∀ op ∈ pausedBetween, RealStatus s op := by
  rintro op hop st rfl
  simp [pausedBetween] at hop

theorem pausedBetween_sound :
    Guarded (step plainChip) Sound (State.init 0 .write 1) pausedBetween := by
  have hdone : ∀ {s : State} {x : Started} {rest : List (Started × Irq)},
      s.hw.pending = (x,.done) :: rest → s.chan.request ≠ .stop → Sound s .interrupt := by
    intro s x rest hp hreq y irq rest' hp' hor
    rw [hp] at hp'
    cases hp'
    exact absurd (hor.resolve_left (by decide)) hreq
  refine guarded_cons trivial rfl (guarded_cons trivial rfl (guarded_cons trivial rfl
    (guarded_cons trivial rfl (guarded_cons trivial rfl ?_))))
  refine guarded_cons (fun _ _ _ d rest hi => ?_) rfl ?_
  · cases hi
    exact Or.inl (List.cons_ne_nil _ _)
  refine guarded_cons trivial rfl (guarded_cons trivial rfl (guarded_cons (hdone rfl (by decide)) rfl ?_))
  refine guarded_cons (fun _ _ _ => ⟨_,_,rfl,List.cons_ne_nil _ _⟩) rfl ?_
  exact guarded_cons trivial rfl (guarded_cons (hdone rfl (by decide)) rfl
    (guarded_cons trivial rfl (guarded_cons (hdone rfl (by decide)) rfl trivial)))

theorem pausedOnLast_along_iff :
    (Along (step plainChip) NoStall (State.init 0 .write 4) pausedOnLast ↔
      Guarded (step plainChip) Sound (State.init 0 .write 4) pausedOnLast) ∧
    Along (step plainChip) NoStall (State.init 0 .write 1) pausedBetween :=
  ⟨noStall_along_iff_sound (runs_of_exec (guarded_of_forall pausedOnLast_realStatus _) rfl),
    (noStall_along_iff_sound (runs_of_exec
      (guarded_of_forall pausedBetween_realStatus _) rfl)).mpr pausedBetween_sound⟩

/-- The resumed channel is busy with nothing outstanding. -/
theorem resume_stalls : ∃ t, Runs (step plainChip) RealStatus (State.init 0 .write 4) pausedOnLast t ∧
    t.chan.status = .busy ∧ t.hw.outstanding = [] ∧ ¬ NoStall t := by
  refine ⟨_,runs_of_exec (guarded_of_forall pausedOnLast_realStatus _) rfl,rfl,rfl,?_⟩
  intro h
  obtain ⟨_,_,_,x,hx,_⟩ := h.busy rfl
  exact absurd hx List.not_mem_nil

end AkidaEdma.DwEdma
