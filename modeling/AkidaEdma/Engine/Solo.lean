import AkidaEdma.Engine.Queue
import AkidaEdma.Library.Trace

/-! # One chunk at a time

A channel whose users ask for one-entry transfers and never pause. Whatever the order of
the calls and the interrupts, and whatever status the core reports, the only chunk that is
ever outstanding is that of the head of `desc_issued`.
-/
namespace AkidaEdma.DwEdma
open Transition Trace

/-- What is done with such a channel. -/
def Client : Op → Prop
  | .pause => False
  | .resume => False
  | .prep x => ∃ direction buf len, x = ⟨direction,.scatterGather [⟨buf,len⟩] 1⟩
  | _ => True

def Desc.Unstarted (d : Desc) : Prop := ∃ k, d.chunk = [k]

/-- Either nothing is outstanding and no descriptor is started, or only the first one is,
and its chunk is outstanding. -/
inductive Head : List Desc → List Started → Prop
  | quiet {ds : List Desc} (h : ∀ d ∈ ds, d.Unstarted) : Head ds []
  | busy {d : Desc} {rest : List Desc} {x : Started} (hvd : d.vd = x.vd) (hd : d.chunk = [])
      (h : ∀ e ∈ rest, e.Unstarted) : Head (d :: rest) [x]

/-- An attempt to start the head of a list, with the chunk that it hands over. -/
inductive Begun : List Desc → List Desc → Option Started → Prop
  | none (ds : List Desc) : Begun ds ds none
  | some {d : Desc} {k : Chunk} {rest : List Desc} {x : Started} (hk : d.chunk = [k])
      (hvd : d.vd = x.vd) : Begun (d :: rest) (d.consume k [] :: rest) (some x)

/-- The invariant. -/
structure Solo (s : State) : Prop where
  room : 1 ≤ s.chan.llMax
  wf : s.chan.Wf
  fresh : s.Prepared
  prepared : ∀ d ∈ s.prepared, d.Unstarted
  submitted : ∀ d ∈ s.chan.descSubmitted, d.Unstarted
  request : s.chan.request ≠ .pause
  head : Head s.chan.descIssued s.hw.outstanding

theorem solo_init (id : ℕ) (dir : Dir) {llMax : ℕ} (h : 1 ≤ llMax) :
    Solo (State.init id dir llMax) where
  room := h
  wf := wf_init id dir llMax
  fresh := by simp [State.Prepared,State.init]
  prepared := by simp [State.init]
  submitted := by simp [State.init]
  request := by simp [State.init]
  head := .quiet (by simp [State.init])

theorem Head.all {ds : List Desc} {xs : List Started} (h : Head ds xs) (hxs : xs = []) :
    ∀ d ∈ ds, d.Unstarted := by
  cases h with
  | quiet h => exact h
  | busy _ _ _ => contradiction

theorem Head.one {ds : List Desc} {xs : List Started} (h : Head ds xs) (hxs : xs ≠ []) :
    ∃ d rest x, ds = d :: rest ∧ xs = [x] ∧ d.vd = x.vd ∧ d.chunk = [] ∧
      ∀ e ∈ rest, e.Unstarted := by
  cases h with
  | quiet _ => exact absurd rfl hxs
  | busy hvd hd h => exact ⟨_,_,_,rfl,rfl,hvd,hd,h⟩

theorem head_begun {ds es : List Desc} {o : Option Started} (h : Head ds []) (hb : Begun ds es o) :
    Head es o.toList := by
  have hall := h.all rfl
  cases hb with
  | none => exact h
  | some hk hvd => exact .busy hvd rfl (fun e he => hall e (List.mem_cons_of_mem _ he))

theorem begun_map_vd {ds es : List Desc} {o : Option Started} (hb : Begun ds es o) :
    es.map Desc.vd = ds.map Desc.vd := by cases hb <;> rfl

theorem begun_none {ds es : List Desc} (hb : Begun ds es none) : es = ds := by cases hb; rfl

/-- With nothing started, the head has a chunk to start. -/
theorem begun_startTransfer {c : Chan} (h : Head c.descIssued []) :
    Begun c.descIssued (startTransfer c).1.descIssued (startTransfer c).2 := by
  rcases startTransfer_cases c with ⟨he,_⟩ | ⟨d,rest,k,ks,hi,hk,he⟩ <;> rw [he]
  · exact .none _
  · obtain ⟨k',hk'⟩ := h.all rfl d (by rw [hi]; exact List.mem_cons_self)
    obtain ⟨rfl,rfl⟩ := List.cons.inj (hk.symm.trans hk')
    rw [hi]
    exact .some hk rfl

/-- With the head started, nothing can be started. -/
theorem startTransfer_busy {c : Chan} {x : Started} (h : Head c.descIssued [x]) :
    startTransfer c = (c,none) := by
  rcases startTransfer_cases c with ⟨he,_⟩ | ⟨d,rest,k,ks,hi,hk,_⟩
  · exact he
  · obtain ⟨e,es,_,hie,_,_,he,_⟩ := h.one (List.cons_ne_nil x [])
    obtain ⟨rfl,_⟩ := List.cons.inj (hi.symm.trans hie)
    exact absurd (hk.symm.trans he) (List.cons_ne_nil _ _)

/-! ## The two operations that start chunks -/

/-- The effect of `issue_pending`. -/
structure Issued (s t : State) (o : Option Started) : Prop where
  submitted : t.chan.descSubmitted = []
  issued : Begun (s.chan.descIssued ++ s.chan.descSubmitted) t.chan.descIssued o
  completed : t.chan.descCompleted = s.chan.descCompleted
  outstanding : t.hw.outstanding = s.hw.outstanding ++ o.toList
  quiet : o ≠ none → s.hw.outstanding = []
  request : t.chan.request = s.chan.request
  log : t.log = s.log ++ .issue s.chan.descSubmitted :: o.toList.map .coreStart

theorem Head.append {ds es : List Desc} {xs : List Started} (h : Head ds xs)
    (hes : ∀ e ∈ es, e.Unstarted) : Head (ds ++ es) xs := by
  cases h with
  | quiet h => exact .quiet (fun e he => (List.mem_append.mp he).elim (h e) (hes e))
  | busy hvd hd h => exact .busy hvd hd (fun e he => (List.mem_append.mp he).elim (h e) (hes e))

theorem solo_issued {s : State} (h : Solo s) :
    (s.chan.configured = false ∧ s.issuePending = s) ∨
    (s.chan.configured = true ∧ ∃ o, Issued s s.issuePending o) := by
  unfold State.issuePending
  rcases deviceIssuePending_cases s.chan with ⟨hc,_⟩ | ⟨hc,_,he⟩ | ⟨hc,_,hreq,_,he⟩
  · exact Or.inl ⟨hc,by rw [hc]; rfl⟩
  · refine Or.inr ⟨hc,none,?_⟩
    rw [if_pos hc,he]
    refine ⟨rfl,.none _,rfl,by simp,fun hne => absurd rfl hne,rfl,?_⟩
    simp [State.call,vchanIssuePending]
  · refine Or.inr ⟨hc,(startTransfer { vchanIssuePending s.chan with status := .busy }).2,?_⟩
    rw [if_pos hc,he]
    have hlog := call_log (s := s.record (.issue s.chan.descSubmitted))
      (r := startTransfer { vchanIssuePending s.chan with status := .busy })
      (by simp [vchanIssuePending])
    rw [record_log,List.append_assoc] at hlog
    have hissued : Begun (s.chan.descIssued ++ s.chan.descSubmitted)
        (startTransfer { vchanIssuePending s.chan with status := .busy }).1.descIssued
        (startTransfer { vchanIssuePending s.chan with status := .busy }).2 ∧
        ((startTransfer { vchanIssuePending s.chan with status := .busy }).2 ≠ none →
          s.hw.outstanding = []) := by
      have hhead := h.head.append h.submitted
      by_cases ho : s.hw.outstanding = []
      · rw [ho] at hhead
        exact ⟨begun_startTransfer (c := { vchanIssuePending s.chan with status := .busy }) hhead,
          fun _ => ho⟩
      · obtain ⟨_,_,x,_,hx,_⟩ := h.head.one ho
        rw [hx] at hhead
        rw [startTransfer_busy (c := { vchanIssuePending s.chan with status := .busy }) hhead]
        exact ⟨.none _,fun hne => absurd rfl hne⟩
    refine ⟨?_,hissued.1,?_,call_outstanding _ _,hissued.2,?_,hlog⟩
    · simp [vchanIssuePending]
    · simp [vchanIssuePending]
    · simp [vchanIssuePending]

def Irq.event (x : Started) : Irq → Event
  | .done => .doneInt x
  | .abort => .abortInt x

/-- The effect of an interrupt: its descriptor is completed, and the next one started. -/
structure Handled (s t : State) (x : Started) (irq : Irq) (d : Desc) (o : Option Started) : Prop where
  vd_eq : d.vd = x.vd
  outstanding : s.hw.outstanding = [x]
  issued : ∃ rest, s.chan.descIssued = d :: rest ∧ (∀ e ∈ rest, e.Unstarted) ∧
    Begun rest t.chan.descIssued o
  submitted : t.chan.descSubmitted = s.chan.descSubmitted
  completed : t.chan.descCompleted = s.chan.descCompleted ++ [d]
  next : t.hw.outstanding = o.toList
  request : t.chan.request ≠ .pause
  log : t.log = s.log ++ irq.event x :: .complete d :: o.toList.map .coreStart

theorem solo_handled {s : State} (h : Solo s) {x : Started} {irq : Irq} {ps : List (Started × Irq)}
    (hp : s.hw.pending = (x,irq) :: ps) : ∃ d o, Handled s (s.interrupt x irq ps) x irq d o := by
  have hout : s.hw.outstanding = x :: (ps.map Prod.fst ++ s.hw.running) := by
    simp [Hw.outstanding,hp]
  obtain ⟨d,rest,y,hi,hy,hvd,hd,hrest⟩ := h.head.one (by rw [hout]; exact List.cons_ne_nil _ _)
  obtain ⟨rfl,hnil⟩ := List.cons.inj (hout.symm.trans hy)
  have hcount : d.chunksAlloc = 0 :=
    (h.wf.issued d (by rw [hi]; exact List.mem_cons_self)).alloc_eq_zero.mpr hd
  cases irq with
  | abort =>
    refine ⟨d,none,hvd,hy,⟨rest,hi,hrest,?_⟩,?_,?_,?_,?_,?_⟩
    all_goals simp only [State.interrupt]
    · rw [abortInterrupt_cons hi]
      exact .none _
    · rw [abortInterrupt_cons hi]
      rfl
    · rw [abortInterrupt_cons hi]
      rfl
    · rw [call_outstanding]
      simpa [Hw.outstanding] using hnil
    · rw [abortInterrupt_cons hi]
      simp
    · rw [abortInterrupt_cons hi]
      simp [State.call,vchanCookieComplete,Irq.event]
  | done =>
    rcases doneInterrupt_cons hi with ⟨hreq,he⟩ | ⟨_,he⟩ | ⟨hreq,_⟩
    · have hcont : continueTransfer d rest s.chan =
          ({ (startTransfer (vchanCookieComplete d rest s.chan)).1 with
            status := if (startTransfer (vchanCookieComplete d rest s.chan)).2.isSome
              then .busy else .idle },(startTransfer (vchanCookieComplete d rest s.chan)).2) := by
        simp only [continueTransfer,hcount,if_true]
      refine ⟨d,(startTransfer (vchanCookieComplete d rest s.chan)).2,hvd,hy,
        ⟨rest,hi,hrest,?_⟩,?_,?_,?_,?_,?_⟩
      all_goals simp only [State.interrupt,he,hcont]
      · exact begun_startTransfer (c := vchanCookieComplete d rest s.chan) (.quiet hrest)
      · simp [vchanCookieComplete]
      · simp [vchanCookieComplete]
      · rw [call_outstanding]
        have hrun : (State.record { s with hw := { s.hw with pending := ps } }
            (.doneInt x)).hw.outstanding = [] := hnil
        rw [hrun]
        rfl
      · simp [vchanCookieComplete,hreq]
      · simp [State.call,vchanCookieComplete,Irq.event]
    · refine ⟨d,none,hvd,hy,⟨rest,hi,hrest,?_⟩,?_,?_,?_,?_,?_⟩
      all_goals simp only [State.interrupt,he]
      · exact .none _
      · rfl
      · rfl
      · rw [call_outstanding]
        simpa [Hw.outstanding] using hnil
      · simp
      · simp [State.call,vchanCookieComplete,Irq.event]
    · exact absurd hreq h.request

theorem step_llMax {chip : Chip} {s t : State} {op : Op} (he : step chip s op = some t) :
    t.chan.llMax = s.chan.llMax := by
  cases op with
  | config c => cases he; rfl
  | prep x =>
    cases he
    rcases prep_cases chip x s with h | ⟨_,_,h⟩
    · rw [h]
    · rw [h]
      rfl
  | submit vd =>
    obtain ⟨_,_,_,rfl⟩ := step_submit_some he
    rfl
  | issuePending =>
    cases he
    unfold State.issuePending
    split
    · rcases deviceIssuePending_cases s.chan with ⟨_,h⟩ | ⟨_,_,h⟩ | ⟨_,_,_,_,h⟩ <;>
        rw [call_chan,h]
      · rfl
      · simp [vchanIssuePending]
    · rfl
  | pause =>
    cases he
    rcases devicePause_cases s.chan with h | ⟨_,_,_,h⟩ <;> rw [h]
  | resume =>
    cases he
    rcases deviceResume_cases s.chan with h | ⟨_,_,_,h⟩ <;> rw [State.resume,call_chan,h]
    simp
  | terminateAll st =>
    cases he
    rcases deviceTerminateAll_cases st s.chan with ⟨_,h⟩ | ⟨_,_,h⟩ | ⟨_,_,_,h⟩ | ⟨_,_,_,h⟩ <;> rw [h]
  | finish irq =>
    obtain ⟨_,_,_,rfl⟩ := step_finish_some he
    rfl
  | interrupt =>
    obtain ⟨x,irq,rest,_,rfl⟩ := step_interrupt_some he
    cases hi : s.chan.descIssued with
    | nil =>
      cases irq <;> simp only [State.interrupt,call_chan]
      · rw [doneInterrupt_nil hi]
      · rw [abortInterrupt_nil hi]
    | cons d ds =>
      cases irq <;> simp only [State.interrupt,call_chan]
      · rcases doneInterrupt_cons hi with ⟨_,h⟩ | ⟨_,h⟩ | ⟨_,h⟩ <;> rw [h]
        · simp only [continueTransfer,startTransfer_llMax]
          split <;> rfl
        · rfl
      · rw [abortInterrupt_cons hi]
        rfl

/-- Every operation of a client keeps the invariant. -/
theorem solo_step {chip : Chip} {s t : State} {op : Op} (h : Solo s) (hc : Client op)
    (he : step chip s op = some t) : Solo t := by
  have hroom : 1 ≤ t.chan.llMax := by rw [step_llMax he]; exact h.room
  have hwf := step_wf h.wf h.fresh he
  have hfresh := step_prepared h.fresh he
  cases op with
  | pause => contradiction
  | resume => contradiction
  | config c => cases he; exact ⟨hroom,hwf,hfresh,h.prepared,h.submitted,h.request,h.head⟩
  | terminateAll st =>
    cases he
    rcases deviceTerminateAll_cases st s.chan with ⟨_,hr⟩ | ⟨_,_,hr⟩ | ⟨_,_,_,hr⟩ | ⟨_,_,_,hr⟩ <;>
      refine ⟨hroom,hwf,hfresh,h.prepared,?_,?_,?_⟩ <;> rw [hr]
    all_goals first | exact h.submitted | exact h.request | exact h.head | simp
  | prep x =>
    obtain ⟨direction,buf,len,rfl⟩ := hc
    cases he
    rcases prep_cases chip ⟨direction,.scatterGather [⟨buf,len⟩] 1⟩ s with hr | ⟨d,hd,hr⟩
    · rw [hr]
      exact h
    · rw [hr] at hroom hwf hfresh ⊢
      refine ⟨hroom,hwf,hfresh,?_,h.submitted,h.request,h.head⟩
      intro e hmem
      rcases List.mem_append.mp hmem with hmem | hmem
      · exact h.prepared e hmem
      · obtain ⟨k,_,hk,_,_⟩ := prepSlaveSingle_chunk h.room hd
        rw [List.mem_singleton.mp hmem]
        exact ⟨k,hk⟩
  | submit vd =>
    obtain ⟨d,hd,_,rfl⟩ := step_submit_some he
    refine ⟨hroom,hwf,hfresh,fun e hmem => h.prepared e (List.mem_of_mem_erase hmem),?_,
      h.request,h.head⟩
    intro e hmem
    rcases List.mem_append.mp hmem with hmem | hmem
    · exact h.submitted e hmem
    · rw [List.mem_singleton.mp hmem]
      exact h.prepared d hd
  | issuePending =>
    cases he
    rcases solo_issued h with ⟨_,hs⟩ | ⟨_,o,hi⟩
    · rw [hs]
      exact h
    · refine ⟨hroom,hwf,hfresh,?_,?_,?_,?_⟩
      · unfold State.issuePending
        split <;> exact h.prepared
      · rw [hi.submitted]
        simp
      · rw [hi.request]
        exact h.request
      · have hhead := h.head.append h.submitted
        rw [hi.outstanding]
        by_cases ho : s.hw.outstanding = []
        · rw [ho] at hhead ⊢
          exact head_begun hhead hi.issued
        · have hnone : o = none := by
            by_contra hne
            exact ho (hi.quiet hne)
          rw [hnone] at hi ⊢
          rw [begun_none hi.issued]
          simpa using hhead
  | finish irq =>
    obtain ⟨x,rest,hr,rfl⟩ := step_finish_some he
    refine ⟨hroom,hwf,hfresh,h.prepared,h.submitted,h.request,?_⟩
    have hout := step_outstanding he
    rw [hout]
    simpa [opStart] using h.head
  | interrupt =>
    obtain ⟨x,irq,ps,hp,rfl⟩ := step_interrupt_some he
    obtain ⟨d,o,hh⟩ := solo_handled h hp
    obtain ⟨rest,_,hrest,hb⟩ := hh.issued
    refine ⟨hroom,hwf,hfresh,?_,?_,hh.request,?_⟩
    · cases irq <;> exact h.prepared
    · rw [hh.submitted]
      exact h.submitted
    · rw [hh.next]
      exact head_begun (.quiet hrest) hb

/-! ## The order of the descriptors -/

/-- All descriptors that were submitted, in that order: they are issued and completed in it. -/
def Chan.line (c : Chan) : List ℕ :=
  (c.descCompleted ++ c.descIssued ++ c.descSubmitted).map Desc.vd

def Op.submits : Op → List ℕ
  | .submit vd => [vd]
  | _ => []

theorem step_line {chip : Chip} {s t : State} {op : Op} (h : Solo s) (hc : Client op)
    (he : step chip s op = some t) : t.chan.line = s.chan.line ++ op.submits ∧
      s.chan.descCompleted <+: t.chan.descCompleted := by
  have hsame : s.chan.line = s.chan.line ++ [] := (List.append_nil _).symm
  cases op with
  | pause => contradiction
  | resume => contradiction
  | config c => cases he; exact ⟨hsame,List.prefix_rfl⟩
  | terminateAll st =>
    cases he
    rcases deviceTerminateAll_cases st s.chan with ⟨_,hr⟩ | ⟨_,_,hr⟩ | ⟨_,_,_,hr⟩ | ⟨_,_,_,hr⟩ <;>
      rw [hr] <;> exact ⟨hsame,List.prefix_rfl⟩
  | prep x =>
    cases he
    rcases prep_cases chip x s with hr | ⟨_,_,hr⟩ <;> rw [hr] <;> exact ⟨hsame,List.prefix_rfl⟩
  | submit vd =>
    obtain ⟨d,_,rfl,rfl⟩ := step_submit_some he
    exact ⟨by simp [Chan.line,txSubmit,Op.submits],List.prefix_rfl⟩
  | finish irq =>
    obtain ⟨_,_,_,rfl⟩ := step_finish_some he
    exact ⟨hsame,List.prefix_rfl⟩
  | issuePending =>
    cases he
    rcases solo_issued h with ⟨_,hs⟩ | ⟨_,o,hi⟩
    · rw [hs]
      exact ⟨hsame,List.prefix_rfl⟩
    · have hvds := begun_map_vd hi.issued
      rw [hi.completed]
      refine ⟨?_,List.prefix_rfl⟩
      simp only [Chan.line,hi.submitted,hi.completed,List.map_append,hvds,Op.submits]
      simp
  | interrupt =>
    obtain ⟨x,irq,ps,hp,rfl⟩ := step_interrupt_some he
    obtain ⟨d,o,hh⟩ := solo_handled h hp
    obtain ⟨rest,hi,_,hb⟩ := hh.issued
    have hvds := begun_map_vd hb
    rw [hh.completed]
    refine ⟨?_,List.prefix_append _ _⟩
    simp only [Chan.line,hh.submitted,hh.completed,hi,List.map_append,hvds,Op.submits]
    simp

/-! ## The history -/

/-- The chunks whose interrupt was handled. -/
def handled (log : List Event) : List Started :=
  log.filterMap fun | .doneInt x => some x | .abortInt x => some x | _ => none

/-- A chunk is handed to the hardware when the interrupts of all before it were handled. -/
def InTurn (log : List Event) (e : Event) : Prop :=
  ∀ x, e = .coreStart x → starts log = handled log

structure Turns (s : State) : Prop where
  always : Always InTurn s.log
  starts_eq : starts s.log = handled s.log ++ s.hw.outstanding

theorem turns_init (id : ℕ) (dir : Dir) (llMax : ℕ) : Turns (State.init id dir llMax) :=
  ⟨always_nil _,rfl⟩

theorem always_other {log : List Event} {e : Event} (h : Always InTurn log)
    (he : ∀ x, e ≠ .coreStart x) : Always InTurn (log ++ [e]) :=
  h.concat (fun x hx => absurd hx (he x))

theorem Turns.same {s t : State} (h : Turns s) (hlog : t.log = s.log)
    (ho : t.hw.outstanding = s.hw.outstanding) : Turns t :=
  ⟨by rw [hlog]; exact h.always,by rw [hlog,ho]; exact h.starts_eq⟩

/-- The end of an operation: a chunk may be started when none is outstanding. -/
theorem turns_start {t : State} {log : List Event} {out : List Started} {o : Option Started}
    (ha : Always InTurn log) (hs : starts log = handled log ++ out) (hq : o ≠ none → out = [])
    (hlog : t.log = log ++ o.toList.map .coreStart) (ho : t.hw.outstanding = out ++ o.toList) :
    Turns t := by
  cases o with
  | none => exact ⟨by simpa [hlog] using ha,by simpa [hlog,ho] using hs⟩
  | some x =>
    have hout := hq (by simp)
    rw [hout,List.append_nil] at hs
    constructor
    · rw [hlog]
      exact ha.concat (fun _ _ => hs)
    · rw [hlog,ho,hout]
      simp only [starts,handled] at hs
      simp [starts,handled,hs]

theorem step_turns {chip : Chip} {s t : State} {op : Op} (h : Solo s) (ht : Turns s)
    (hc : Client op) (he : step chip s op = some t) : Turns t := by
  cases op with
  | pause => contradiction
  | resume => contradiction
  | config c => cases he; exact ht.same rfl rfl
  | terminateAll st => cases he; exact ht.same rfl rfl
  | prep x =>
    cases he
    rcases prep_cases chip x s with hr | ⟨d,_,hr⟩ <;> rw [hr]
    · exact ht
    · refine ⟨always_other ht.always (by simp),?_⟩
      simpa [starts,handled] using ht.starts_eq
  | submit vd =>
    obtain ⟨d,_,_,rfl⟩ := step_submit_some he
    refine ⟨always_other ht.always (by simp),?_⟩
    simpa [starts,handled] using ht.starts_eq
  | finish irq =>
    have hout := step_outstanding he
    obtain ⟨x,rest,hr,rfl⟩ := step_finish_some he
    exact ht.same rfl (by simpa [opStart] using hout)
  | issuePending =>
    cases he
    rcases solo_issued h with ⟨_,hs⟩ | ⟨_,o,hi⟩
    · rw [hs]
      exact ht
    · have ha : Always InTurn (s.log ++ [.issue s.chan.descSubmitted]) :=
        always_other ht.always (by simp)
      refine turns_start ha ?_ hi.quiet ?_ hi.outstanding
      · simpa [starts,handled] using ht.starts_eq
      · rw [hi.log,List.append_assoc]
        rfl
  | interrupt =>
    obtain ⟨x,irq,ps,hp,rfl⟩ := step_interrupt_some he
    obtain ⟨d,o,hh⟩ := solo_handled h hp
    have hirq : ∀ y, irq.event x ≠ .coreStart y := by
      intro y
      cases irq <;> simp [Irq.event]
    have ha : Always InTurn (s.log ++ [irq.event x] ++ [.complete d]) :=
      always_other (always_other ht.always hirq) (by simp)
    refine turns_start ha ?_ (fun _ => rfl) ?_ hh.next
    · rw [List.append_nil]
      have hs := ht.starts_eq
      rw [hh.outstanding] at hs
      cases irq <;> simpa [starts,handled,Irq.event] using hs
    · rw [hh.log]
      simp only [List.append_assoc]
      rfl

end AkidaEdma.DwEdma
