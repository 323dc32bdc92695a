import AkidaEdma.Driver.Outstanding

/-! # What a successful transfer waited for

The completion of a channel belongs to the channel and not to a transfer: the callback of
any descriptor wakes the call that waits. A transfer that returns 0 was its caller's own as
long as nothing was left of earlier transfers when it cleared the completion, and no abort
is handled while it waits.
-/
namespace AkidaEdma.Driver
open DwEdma Transition

/-- Descriptor `vd` was submitted, then its chunk was handed to the hardware, and then its
done interrupt was handled. -/
def Proper (vd : ℕ) (log : List Event) : Prop :=
  ∃ d x, d.vd = vd ∧ x.vd = vd ∧ [Event.submit d,.coreStart x,.doneInt x].Sublist log

theorem mem_starts {log : List Event} {x : Started} (h : Event.coreStart x ∈ log) :
    x ∈ starts log := List.mem_filterMap.mpr ⟨_,h,rfl⟩

theorem Proper.append {vd : ℕ} {log : List Event} (h : Proper vd log) (es : List Event) :
    Proper vd (log ++ es) := by
  obtain ⟨d,x,hd,hx,hl⟩ := h
  exact ⟨d,x,hd,hx,hl.trans (List.sublist_append_left log es)⟩

/-- The course of the only descriptor of a channel. -/
inductive Underway (vd : ℕ) (c : DmaChan) : Prop
  | queued {d d' : Desc} (hvd : d.vd = vd) (hvd' : d'.vd = vd)
      (ho : c.engine.hw.outstanding = [])
      (hq : c.engine.chan.descIssued ++ c.engine.chan.descSubmitted = [d])
      (hc : c.called = c.engine.chan.descCompleted.length) (hz : c.dmaComplete = 0)
      (hlog : [Event.submit d'].Sublist c.engine.log)
  | started {d d' : Desc} {x : Started} (hvd : d'.vd = vd) (hx : x.vd = vd)
      (ho : c.engine.hw.outstanding = [x]) (hi : c.engine.chan.descIssued = [d])
      (hs : c.engine.chan.descSubmitted = [])
      (hc : c.called = c.engine.chan.descCompleted.length) (hz : c.dmaComplete = 0)
      (hlog : [Event.submit d',.coreStart x].Sublist c.engine.log)
  | ended (hi : c.engine.chan.descIssued = []) (hs : c.engine.chan.descSubmitted = [])
      (hlog : Proper vd c.engine.log)

/-- Between `reinit_completion` and the end of the wait. -/
def Xfer.Pending (x : Xfer) : Prop := x.stage = .submit ∨ x.stage = .issue ∨ x.stage = .wait

/-- When a call clears the completion, no earlier descriptor is left on the channel, not even
one whose callback is still to run; and no abort is handled until its wait is over. -/
def Fair (s : State) : Label → Prop
  | .run k _ => ∀ c x, s.At k c x → x.stage = .reinit → (s.chans c).waiting = []
  | .interrupt c => ∀ k x, s.At k c x → x.Pending →
      ∀ p ∈ (s.chans c).engine.hw.pending.head?, p.2 = .done
  | _ => True

namespace Session

def Fair (s : Session) : Label → Prop
  | .run _ => ∀ x, s.xfer = some x → x.stage = .reinit → s.chan.waiting = []
  | .interrupt => ∀ x, s.xfer = some x → x.Pending →
      ∀ p ∈ s.chan.engine.hw.pending.head?, p.2 = .done
  | _ => True

end Session

/-- The invariant, by the stage of the call. -/
def Stage.Expects (vd : ℕ) (c : DmaChan) : Stage → Prop
  | .submit => c.waiting = [] ∧ c.dmaComplete = 0
  | .issue => Underway vd c
  | .wait => Underway vd c
  | .err ret => ret ≠ 0
  | .returned ret => ret = 0 → Proper vd c.engine.log
  | _ => True

structure Expected (s : Session) : Prop where
  clients : Clients s.chan
  stage : ∀ x, s.xfer = some x → x.stage.Expects x.txdesc s.chan

theorem solo_quiet {e : DwEdma.State} (h : Solo e) (hi : e.chan.descIssued = []) :
    e.hw.outstanding = [] := by
  by_contra ho
  obtain ⟨d,rest,_,hd,_⟩ := h.head.one ho
  rw [hi] at hd
  contradiction

/-- An interrupt needs an outstanding chunk. -/
theorem interrupt_outstanding {chip : Chip} {s t : DwEdma.State}
    (he : DwEdma.step chip s .interrupt = some t) : s.hw.outstanding ≠ [] := by
  obtain ⟨x,irq,ps,hp,_⟩ := step_interrupt_some he
  simp [Hw.outstanding,hp]

/-- The submission of the descriptor. -/
theorem underway_submit {dev : Device} {c : DmaChan} {e : DwEdma.State} {vd : ℕ} (h : Clients c)
    (hw : c.waiting = []) (hz : c.dmaComplete = 0)
    (he : DwEdma.step dev.chip c.engine (.submit vd) = some e) :
    Underway vd { c with engine := e } := by
  obtain ⟨hi,hs,hc⟩ := waiting_nil h hw
  have ho := solo_quiet h.solo hi
  obtain ⟨d,_,hvd,rfl⟩ := step_submit_some he
  refine .queued hvd hvd ho ?_ hc hz ?_
  · simp [txSubmit,hi,hs]
  · exact List.sublist_append_right _ _

theorem underway_issue {c : DmaChan} {vd : ℕ} (h : Solo c.engine) (hu : Underway vd c) :
    Underway vd { c with engine := c.engine.issuePending } := by
  rcases solo_issued h with ⟨_,hs⟩ | ⟨_,o,hi⟩
  · rw [hs]
    exact hu
  · cases hu with
    | @queued d d' hvd hvd' ho hq hc hz hlog =>
      have hb := hi.issued
      rw [hq] at hb
      have hlog' : [Event.submit d'].Sublist c.engine.issuePending.log := by
        rw [hi.log]
        exact hlog.trans (List.sublist_append_left _ _)
      have hc' : c.called = c.engine.issuePending.chan.descCompleted.length := by
        rw [hi.completed]
        exact hc
      generalize hds : c.engine.issuePending.chan.descIssued = ds at hb
      have hout := hi.outstanding
      rw [ho,List.nil_append] at hout
      cases hb with
      | none =>
        exact .queued hvd hvd' hout (by simp [hds,hi.submitted]) hc' hz hlog'
      | @some _ k _ x hk hx =>
        refine .started hvd' (hx.symm.trans hvd) hout hds hi.submitted hc' hz ?_
        rw [hi.log]
        exact hlog.append ((List.Sublist.refl _).cons _)
    | @started d d' x hvd hx ho hiss hs hc hz hlog =>
      have hnone : o = none := by
        by_contra hne
        rw [hi.quiet hne] at ho
        contradiction
      rw [hnone] at hi
      have hds := begun_none hi.issued
      rw [hiss,hs] at hds
      refine .started hvd hx ?_ hds hi.submitted ?_ hz ?_
      · rw [hi.outstanding,ho]
        rfl
      · rw [hi.completed]
        exact hc
      · rw [hi.log]
        exact hlog.trans (List.sublist_append_left _ _)
    | ended hiss hs hlog =>
      have hb := hi.issued
      rw [hiss,hs] at hb
      generalize hds : c.engine.issuePending.chan.descIssued = ds at hb
      cases hb
      refine .ended hds hi.submitted ?_
      rw [hi.log]
      exact hlog.append _

theorem underway_finish {dev : Device} {c : DmaChan} {e : DwEdma.State} {vd : ℕ} {irq : Irq}
    (hu : Underway vd c) (he : DwEdma.step dev.chip c.engine (.finish irq) = some e) :
    Underway vd { c with engine := e } := by
  have hout := step_outstanding he
  obtain ⟨x,rest,hr,rfl⟩ := step_finish_some he
  simp only [reduceCtorEq,if_false,opStart,Option.toList_none,List.append_nil] at hout
  cases hu with
  | queued hvd hvd' ho hq hc hz hlog => exact .queued hvd hvd' (hout.trans ho) hq hc hz hlog
  | started hvd hx ho hi hs hc hz hlog => exact .started hvd hx (hout.trans ho) hi hs hc hz hlog
  | ended hi hs hlog => exact .ended hi hs hlog

/-- The done interrupt of the descriptor. -/
theorem underway_interrupt {dev : Device} {c : DmaChan} {e : DwEdma.State} {vd : ℕ}
    (h : Solo c.engine) (hu : Underway vd c)
    (hdone : ∀ p ∈ c.engine.hw.pending.head?, p.2 = .done)
    (he : DwEdma.step dev.chip c.engine .interrupt = some e) :
    Underway vd { c with engine := e } := by
  have hne := interrupt_outstanding he
  obtain ⟨y,irq,ps,hp,rfl⟩ := step_interrupt_some he
  obtain ⟨d₀,o,hh⟩ := solo_handled h hp
  have hirq : irq = .done := hdone (y,irq) (by rw [hp]; rfl)
  subst hirq
  cases hu with
  | queued _ _ ho _ _ _ _ => exact absurd ho hne
  | @started d d' x hvd hx ho hi hs hc hz hlog =>
    obtain ⟨rfl,_⟩ := List.cons.inj (ho.symm.trans hh.outstanding)
    obtain ⟨rest,hi',_,hb⟩ := hh.issued
    obtain ⟨_,rfl⟩ := List.cons.inj (hi.symm.trans hi')
    generalize hds : (c.engine.interrupt x .done ps).chan.descIssued = ds at hb
    cases hb
    refine .ended hds (hh.submitted.trans hs) ⟨d',x,hvd,hx,?_⟩
    rw [hh.log]
    exact hlog.append ((List.nil_sublist _).cons_cons _)
  | ended hi _ _ => exact absurd (solo_quiet h hi) hne

/-- A callback that runs while the call waits is that of its own descriptor. -/
theorem underway_tasklet {c : DmaChan} {d : Desc} {vd : ℕ} (hu : Underway vd c)
    (hd : c.engine.chan.descCompleted[c.called]? = some d) :
    Underway vd { c.callback (c.owner d.vd) with called := c.called + 1 } := by
  obtain ⟨hlt,_⟩ := List.getElem?_eq_some_iff.mp hd
  cases hu with
  | queued _ _ _ _ hc _ _ => omega
  | started _ _ _ _ _ hc _ _ => omega
  | ended hi hs hlog => exact .ended hi hs hlog

/-- A call whose wait succeeds waited for its own descriptor. -/
theorem underway_completed {c : DmaChan} {vd : ℕ} (hu : Underway vd c) (hc : c.dmaComplete ≠ 0) :
    Proper vd c.engine.log := by
  cases hu with
  | queued _ _ _ _ _ hz _ => exact absurd hz hc
  | started _ _ _ _ _ _ hz _ => exact absurd hz hc
  | ended _ _ hlog => exact hlog

theorem takes_expected {dev : Device} {way : Way} {x x' : Xfer} {c c' : DmaChan} {ch : Choice}
    (h : Clients c) (hx : x.stage.Expects x.txdesc c)
    (hfair : x.stage = .reinit → c.waiting = []) (ht : x.Takes dev way c ch c' x') :
    x'.stage.Expects x'.txdesc c' := by
  cases ht with
  | map _ => trivial
  | unmapped _ => exact fun h0 => absurd h0 (by decide)
  | config _ _ => trivial
  | unprepared _ => exact (by decide : (-EINVAL : ℤ) ≠ 0)
  | prep _ _ _ => trivial
  | reinit hs => exact ⟨hfair hs,rfl⟩
  | submit hs he =>
    rw [hs] at hx
    exact underway_submit h hx.1 hx.2 he
  | issue hs he =>
    rw [hs] at hx
    cases he
    exact underway_issue h.solo hx
  | completed hs hc =>
    rw [hs] at hx
    have hproper : Proper x.txdesc c.engine.log := underway_completed hx hc
    exact fun _ => hproper
  | expired _ _ _ => trivial
  | terminate _ _ => exact (by decide : (-ETIMEDOUT : ℤ) ≠ 0)
  | err hs =>
    rw [hs] at hx
    exact fun h0 => absurd h0 hx

/-- What the hardware and the tasklet do is expected too. -/
theorem expects_of {c c' : DmaChan} {vd : ℕ} {st : Stage} (h : st.Expects vd c)
    (hsubmit : c.waiting = [] → c.dmaComplete = 0 → st = .submit →
      c'.waiting = [] ∧ c'.dmaComplete = 0)
    (hunder : Underway vd c → (st = .issue ∨ st = .wait) → Underway vd c')
    (hlog : Proper vd c.engine.log → Proper vd c'.engine.log) : st.Expects vd c' := by
  cases st with
  | submit => exact hsubmit h.1 h.2 rfl
  | issue => exact hunder h (Or.inl rfl)
  | wait => exact hunder h (Or.inr rfl)
  | returned ret => exact fun h0 => hlog (h h0)
  | err ret => exact h
  | _ => trivial

theorem proper_step {chip : Chip} {s t : DwEdma.State} {op : Op} {vd : ℕ}
    (he : DwEdma.step chip s op = some t) (h : Proper vd s.log) : Proper vd t.log := by
  obtain ⟨es,hes⟩ := step_log_prefix he
  rw [← hes]
  exact h.append es

theorem moves_expected {dev : Device} {way : Way} {s t : Session} {m : Session.Label}
    (h : Expected s) (hf : s.Fair m) (hm : Session.Moves dev way s m t) : Expected t := by
  obtain ⟨hc,hx⟩ := h
  refine ⟨moves_clients hc hm,?_⟩
  cases hm with
  | begin a n _ =>
    rintro x ⟨⟩
    trivial
  | run hs ht =>
    rintro y ⟨⟩
    exact takes_expected hc (hx _ hs) (hf _ hs) ht
  | leave _ _ => exact fun y hy => by contradiction
  | finish he =>
    intro x hs
    refine expects_of (hx x hs) ?_ (fun hu _ => underway_finish hu he) (proper_step he)
    intro hnil hz _
    exact ⟨by rw [op_waiting hc he trivial,hnil]; rfl,hz⟩
  | interrupt he =>
    intro x hs
    refine expects_of (hx x hs) ?_ ?_ (proper_step he)
    · intro hnil hz _
      exact ⟨by rw [op_waiting hc he trivial,hnil]; rfl,hz⟩
    · intro hu hst
      exact underway_interrupt hc.solo hu (hf x hs (Or.inr hst)) he
  | @tasklet d hd =>
    intro x hs
    refine expects_of (hx x hs) ?_ (fun hu _ => underway_tasklet hu hd) id
    intro hnil _ _
    have hw := tasklet_waiting hd
    rw [hnil] at hw
    contradiction

theorem runs_expected {dev : Device} {s : State} {ls : List Label}
    (hr : Runs (step dev) Fair (State.init dev) ls s) (c : ChanId) :
    ∃ o, s.Running c o ∧ Expected ⟨s.chans c,o⟩ := by
  refine runs_sessions (fun c => ⟨init_clients dev c,fun x hx => by contradiction⟩)
    (fun _ _ _ _ h hf hm => moves_expected h hf hm) ?_ hr c
  intro s l c o m hg ho hon
  cases m with
  | run ch =>
    obtain ⟨k,x,rfl,hx⟩ := hon
    intro y hy hst
    cases hy.symm.trans (running_at ho hx)
    exact hg c x hx hst
  | interrupt =>
    cases hon
    intro x hx hp
    obtain ⟨k,hk⟩ := (ho x).mp hx
    exact hg k x hk hp
  | _ => trivial

/-- In a fair run, the descriptor of a transfer that returned 0 was submitted, then handed to
the hardware, and then its done interrupt was handled. -/
theorem success_is_own {dev : Device} {s : State} {ls : List Label}
    (hr : Runs (step dev) Fair (State.init dev) ls s) {k : ℕ} {c : ChanId} {x : Xfer}
    (hx : s.At k c x) (hret : x.stage = .returned 0) : Proper x.txdesc (s.chans c).engine.log := by
  obtain ⟨o,ho,hexp⟩ := runs_expected hr c
  have hst := hexp.stage x (running_at ho hx)
  rw [hret] at hst
  exact hst rfl

/-- A check that a step is fair, for concrete runs. -/
def State.quiet (s : State) : Label → Bool
  | .run k _ =>
    match (s.calls k).map Call.phase with
    | some (.transfer c x) => x.stage != .reinit || (s.chans c).waiting.isEmpty
    | _ => true
  | .interrupt c => (s.chans c).engine.hw.pending.all fun p => p.2 == .done
  | _ => true

theorem fair_of_quiet {s : State} {l : Label} (h : s.quiet l = true) : Fair s l := by
  cases l with
  | run k ch =>
    rintro c x ⟨a,ha,hp⟩ hst
    simp only [State.quiet,ha,hp,Option.map_some] at h
    simpa [hst] using h
  | interrupt c =>
    intro k x _ _ p hp
    have hall := List.all_eq_true.mp h p (List.mem_of_mem_head? hp)
    simpa using hall
  | _ => trivial

/-- One read of four bytes, up to the return of its transfer. -/
def oneRead : List Label :=
  .enter 0 .rx 0 4 true :: List.replicate 8 (.run 0 yes) ++
    [.finish (.rx,0) .done,.interrupt (.rx,0),.tasklet (.rx,0),.run 0 yes]

theorem oneRead_succeeds : ∃ s x, exec (step plainDevice) (State.init plainDevice) oneRead = some s ∧
    s.At 0 (.rx,0) x ∧ Proper x.txdesc (s.chans (.rx,0)).engine.log := by
  have hcheck : check (step plainDevice) (fun s l => s.quiet l = true) (State.init plainDevice)
    oneRead = some _ := rfl
  have hr := (runs_of_check hcheck).mono (fun _ _ => fair_of_quiet)
  exact ⟨_,_,rfl,⟨_,rfl,rfl⟩,success_is_own hr (k := 0) (c := (.rx,0)) ⟨_,rfl,rfl⟩ rfl⟩

/-- A read times out with its chunk outstanding. The next call gets the channel, and while it
waits the late done interrupt completes the old descriptor. -/
def lateDone : List Label :=
  .enter 0 .rx 0 4 true :: List.replicate 8 (.run 0 yes) ++
    List.replicate 5 (.run 0 ⟨false,false,0,.inProgress⟩) ++
    .enter 1 .rx 8 4 true :: List.replicate 8 (.run 1 yes) ++
    [.finish (.rx,0) .done,.interrupt (.rx,0),.tasklet (.rx,0),.run 1 yes]

/-- The next call returns 0, and its descriptor was never started. -/
theorem lateDone_succeeds : ∃ s x, Runs (step plainDevice) free (State.init plainDevice) lateDone s ∧
    s.At 1 (.rx,0) x ∧ x.stage = .returned 0 ∧ ¬ Proper x.txdesc (s.chans (.rx,0)).engine.log := by
  have hex : exec (step plainDevice) (State.init plainDevice) lateDone = some _ := rfl
  refine ⟨_,_,runs_of_exec (guarded_free _ _) hex,⟨_,rfl,rfl⟩,rfl,?_⟩
  rintro ⟨d,y,_,hy,hsub⟩
  have hmem := mem_starts (hsub.subset (List.mem_cons_of_mem _ List.mem_cons_self))
  have hfirst : y.vd ∈ [0] := List.mem_map_of_mem hmem (f := Started.vd)
  rw [hy] at hfirst
  exact absurd hfirst (by decide)

end AkidaEdma.Driver
