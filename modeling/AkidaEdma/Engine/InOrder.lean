import AkidaEdma.Engine.Stall
import AkidaEdma.Engine.Terminate
import AkidaEdma.Library.Trace
import Mathlib.Data.List.Nodup

/-! # Execution in order

Without termination and without aborts, the started chunks are those of the issued
descriptors, one after the other. The history tells how far the channel is: some issued
descriptors are completed, the next one has some of its chunks started, and the last of
these may be outstanding.
-/
namespace AkidaEdma.DwEdma
open Transition Trace

/-- The chunks of descriptors, one descriptor after the other. -/
def plan (ds : List Desc) : List (ℕ × Chunk) := ds.flatMap fun d => d.chunk.map fun k => (d.vd,k)

def Started.key (x : Started) : ℕ × Chunk := (x.vd,x.chunk)

theorem plan_append (ds es : List Desc) : plan (ds ++ es) = plan ds ++ plan es :=
  List.flatMap_append

theorem plan_singleton (d : Desc) : plan [d] = d.chunk.map fun k => (d.vd,k) := by simp [plan]

/-- What is asked of every event when it happens: a chunk starts when every started chunk
is done, and a descriptor is completed, after those issued before it, when its own
chunks and theirs are exactly the ones done. -/
def Orderly (log : List Event) : Event → Prop
  | .coreStart _ => dones log = starts log
  | .complete d => ∃ pre e post, issues log = pre ++ e :: post ∧ e.vd = d.vd ∧
      completions log = pre.map Desc.vd ∧ (dones log).map Started.key = plan (pre ++ [e])
  | _ => True

/-- `cur` is `queue` as it was issued; `used` is what its head has given up. -/
inductive Consumes : List Desc → List (ℕ × Chunk) → List Desc → Prop
  | nil : Consumes [] [] []
  | cons {e d : Desc} {rest : List Desc} (used : List Chunk) (hvd : e.vd = d.vd)
      (hchunk : e.chunk = used ++ d.chunk) :
      Consumes (e :: rest) (used.map fun k => (d.vd,k)) (d :: rest)

/-- The history read against the queue and the outstanding chunks. -/
structure Progress (log : List Event) (queue : List Desc) (out : List Started)
    (pre cur : List Desc) (used : List (ℕ × Chunk)) : Prop where
  orderly : Always Orderly log
  issued : issues log = pre ++ cur
  completed : completions log = pre.map Desc.vd
  queue : Consumes cur used queue
  started : (starts log).map Started.key = plan pre ++ used
  done : starts log = dones log ++ out

variable {log : List Event} {queue rest pre cur ds : List Desc} {out : List Started}
  {used : List (ℕ × Chunk)} {d : Desc}

theorem Consumes.append (h : Consumes cur used queue) (ds : List Desc) :
    Consumes (cur ++ ds) used (queue ++ ds) := by
  cases h with
  | cons used hvd hchunk => exact .cons used hvd hchunk
  | nil =>
    cases ds with
    | nil => exact .nil
    | cons d ds => exact .cons [] rfl rfl

theorem Consumes.prefix_plan (h : Consumes cur used queue) : used <+: plan cur := by
  cases h with
  | nil => exact List.prefix_rfl
  | @cons e d rest us hvd hchunk =>
    rw [plan,List.flatMap_cons,hchunk,List.map_append,hvd,List.append_assoc]
    exact List.prefix_append _ _

/-- The started chunks are a prefix of the plan. -/
theorem Progress.prefix_plan (h : Progress log queue out pre cur used) :
    (starts log).map Started.key <+: plan (issues log) := by
  rw [h.started,h.issued,plan_append]
  exact (List.prefix_append_right_inj _).mpr h.queue.prefix_plan

theorem Progress.issue (h : Progress log queue out pre cur used) (ds : List Desc) :
    Progress (log ++ [.issue ds]) (queue ++ ds) out pre (cur ++ ds) used where
  orderly := h.orderly.concat trivial
  issued := by
    have happ : issues (log ++ [.issue ds]) = issues log ++ ds := by simp [issues]
    rw [happ,h.issued,List.append_assoc]
  completed := by simpa [completions] using h.completed
  queue := h.queue.append ds
  started := by simpa [starts] using h.started
  done := by simpa [starts,dones] using h.done

/-- Events that neither the queue nor the hardware knows of. -/
theorem Progress.other (h : Progress log queue out pre cur used) {e : Event}
    (he : (∃ d, e = .prep d) ∨ ∃ d, e = .submit d) :
    Progress (log ++ [e]) queue out pre cur used := by
  rcases he with ⟨d,rfl⟩ | ⟨d,rfl⟩
  all_goals
    refine ⟨h.orderly.concat trivial,?_,?_,h.queue,?_,?_⟩
    · simpa [issues] using h.issued
    · simpa [completions] using h.completed
    · simpa [starts] using h.started
    · simpa [starts,dones] using h.done

theorem Progress.start (h : Progress log (d :: rest) [] pre cur used) {k : Chunk}
    {ks : List Chunk} {first : Bool} (hk : d.chunk = k :: ks) :
    Progress (log ++ [.coreStart ⟨d.vd,k,first⟩]) (d.consume k ks :: rest) [⟨d.vd,k,first⟩]
      pre cur (used ++ [(d.vd,k)]) where
  orderly := h.orderly.concat (by have hd := h.done; rw [List.append_nil] at hd; exact hd.symm)
  issued := by simpa [issues] using h.issued
  completed := by simpa [completions] using h.completed
  queue := by
    obtain _ | @⟨e,_,_,us,hvd,hchunk⟩ := h.queue
    have hus : us.map (fun k => (d.vd,k)) ++ [(d.vd,k)] = (us ++ [k]).map fun k => (d.vd,k) := by
      rw [List.map_append,List.map_singleton]
    rw [hus]
    refine Consumes.cons (d := d.consume k ks) (us ++ [k]) hvd ?_
    rw [hchunk,hk,consume_chunk,List.append_assoc]
    rfl
  started := by
    have happ : starts (log ++ [.coreStart ⟨d.vd,k,first⟩]) = starts log ++ [⟨d.vd,k,first⟩] := by
      simp [starts]
    rw [happ,List.map_append,h.started,List.append_assoc]
    rfl
  done := by
    have hd := h.done
    rw [List.append_nil] at hd
    simpa [starts,dones] using hd

theorem Progress.doneInt {x : Started} (h : Progress log queue (x :: out) pre cur used) :
    Progress (log ++ [.doneInt x]) queue out pre cur used where
  orderly := h.orderly.concat trivial
  issued := by simpa [issues] using h.issued
  completed := by simpa [completions] using h.completed
  queue := h.queue
  started := by simpa [starts] using h.started
  done := by
    have hd := h.done
    simpa [starts,dones] using hd

/-- A spent head with nothing outstanding is completed. -/
theorem Progress.complete (h : Progress log (d :: rest) [] pre cur used) (hd : d.chunk = []) :
    ∃ e, Progress (log ++ [.complete d]) rest [] (pre ++ [e]) rest [] := by
  have hstarted := h.started
  have hdone := h.done
  have hissued := h.issued
  rw [List.append_nil] at hdone
  obtain _ | @⟨e,_,_,us,hvd,hchunk⟩ := h.queue
  rw [hd,List.append_nil] at hchunk
  have hplan : plan pre ++ us.map (fun k => (d.vd,k)) = plan (pre ++ [e]) := by
    rw [plan_append,plan_singleton,hchunk,hvd]
  have hkeys : (dones log).map Started.key = plan (pre ++ [e]) := by
    rw [← hdone,hstarted,hplan]
  refine ⟨e,?_,?_,?_,?_,?_,?_⟩
  · exact h.orderly.concat ⟨pre,e,rest,hissued,hvd,h.completed,hkeys⟩
  · rw [List.append_assoc]
    simpa [issues] using hissued
  · simpa [completions,hvd] using h.completed
  · cases rest with
    | nil => exact .nil
    | cons f fs => exact .cons [] rfl rfl
  · rw [List.append_nil,← hplan]
    simpa [starts] using hstarted
  · rw [List.append_nil]
    simpa [starts,dones] using hdone

/-- A run without termination and without aborts. -/
def Undisturbed (_ : State) : Op → Prop
  | .terminateAll _ => False
  | .finish irq => irq = .done
  | _ => True

def InProgress (log : List Event) (queue : List Desc) (out : List Started) : Prop :=
  ∃ pre cur used, Progress log queue out pre cur used

/-- The invariant of undisturbed runs. -/
structure Steady (s : State) : Prop where
  wf : s.chan.Wf
  progress : InProgress s.log s.chan.descIssued s.hw.outstanding
  busy : s.hw.outstanding ≠ [] →
    s.chan.status = .busy ∧ s.chan.descIssued ≠ [] ∧ ∃ x, s.hw.outstanding = [x]
  irqs : ∀ p ∈ s.hw.pending, p.2 = .done
  request : s.chan.request ≠ .stop
  origin : ∀ d ∈ s.prepared ++ s.chan.descSubmitted ++ issues s.log,
    Event.prep d ∈ s.log ∧ d.chunk ≠ []
  moved : s.chan.descCompleted.map Desc.vd = completions s.log

theorem steady_init (id : ℕ) (dir : Dir) (llMax : ℕ) : Steady (State.init id dir llMax) where
  wf := wf_init id dir llMax
  progress := ⟨[],[],[],always_nil _,rfl,rfl,.nil,rfl,rfl⟩
  busy := fun h => absurd rfl h
  irqs := by simp [State.init]
  request := by simp [State.init]
  origin := by simp [State.init,issues]
  moved := rfl

/-- Nothing changes that the invariant reads, or a status other than busy is entered with
nothing outstanding. -/
theorem Steady.of_chan {s t : State} (h : Steady s) (hwf : t.chan.Wf) (hlog : t.log = s.log)
    (hi : t.chan.descIssued = s.chan.descIssued) (hw : t.hw = s.hw)
    (hprep : t.prepared = s.prepared) (hsub : t.chan.descSubmitted = s.chan.descSubmitted)
    (hcomp : t.chan.descCompleted = s.chan.descCompleted)
    (hst : s.hw.outstanding ≠ [] → s.chan.status = .busy → t.chan.status = .busy)
    (hreq : t.chan.request ≠ .stop) : Steady t where
  wf := hwf
  progress := by rw [hlog,hi,hw]; exact h.progress
  busy := by
    rw [hi,hw]
    intro ho
    obtain ⟨hb,hne,hx⟩ := h.busy ho
    exact ⟨hst ho hb,hne,hx⟩
  irqs := by rw [hw]; exact h.irqs
  request := hreq
  origin := by rw [hlog,hprep,hsub]; exact h.origin
  moved := by rw [hlog,hcomp]; exact h.moved

theorem Steady.start {s : State} (h : Steady s) (ho : s.hw.outstanding = []) {st : Status}
    (hst : (startTransfer s.chan).2 ≠ none → st = .busy) :
    Steady (s.call ({ (startTransfer s.chan).1 with status := st },(startTransfer s.chan).2)) := by
  have hlog := call_log (s := s)
    (r := ({ (startTransfer s.chan).1 with status := st },(startTransfer s.chan).2)) (by simp)
  have hprog := h.progress
  rw [ho] at hprog
  rcases startTransfer_cases s.chan with ⟨he,hd⟩ | ⟨d,rest,k,ks,hi,hk,he⟩
  · rw [he] at hlog ⊢
    refine h.of_chan (h.wf.of_lists rfl rfl) (by simpa using hlog) rfl ?_ rfl rfl rfl
      (fun hne => absurd ho hne) h.request
    simp [State.call]
  · rw [he] at hst hlog ⊢
    have hwf := wf_startTransfer h.wf
    rw [he] at hwf
    simp only [Option.toList_some,List.map_singleton] at hlog
    rw [hi] at hprog
    obtain ⟨pre,cur,used,hprog⟩ := hprog
    refine ⟨hwf.of_lists rfl rfl,?_,?_,h.irqs,h.request,?_,?_⟩
    · rw [hlog,call_outstanding,ho,List.nil_append]
      exact ⟨pre,cur,_,hprog.start hk⟩
    · intro _
      exact ⟨hst (by simp),List.cons_ne_nil _ _,_,by rw [call_outstanding,ho]; rfl⟩
    · intro e hmem
      rw [hlog] at hmem ⊢
      obtain ⟨hp,hne⟩ := h.origin e (by simpa [issues] using hmem)
      exact ⟨List.mem_append_left _ hp,hne⟩
    · rw [hlog]
      simpa [completions] using h.moved

theorem Steady.issue {s : State} (h : Steady s) :
    Steady (State.record { s with chan := vchanIssuePending s.chan } (.issue s.chan.descSubmitted)) := by
  refine ⟨wf_vchanIssuePending h.wf,?_,?_,h.irqs,h.request,?_,?_⟩
  · obtain ⟨pre,cur,used,hprog⟩ := h.progress
    exact ⟨pre,_,used,hprog.issue s.chan.descSubmitted⟩
  · intro ho
    obtain ⟨hb,hne,hx⟩ := h.busy ho
    exact ⟨hb,List.append_ne_nil_of_left_ne_nil hne _,hx⟩
  · intro e hmem
    obtain ⟨hp,hne⟩ := h.origin e (by simpa [issues,vchanIssuePending,or_assoc,or_comm] using hmem)
    exact ⟨List.mem_append_left _ hp,hne⟩
  · simpa [completions,vchanIssuePending] using h.moved

theorem steady_issuePending {s : State} (h : Steady s) : Steady s.issuePending := by
  unfold State.issuePending
  rcases deviceIssuePending_cases s.chan with ⟨hc,_⟩ | ⟨hc,_,he⟩ | ⟨hc,_,hreq,hidle,he⟩
  · rw [hc]
    exact h
  · rw [if_pos hc,he]
    refine h.issue.of_chan (wf_vchanIssuePending h.wf) ?_ rfl ?_ rfl rfl rfl (fun _ => id) h.request
    · simp [State.call,vchanIssuePending]
    · simp [State.call]
  · rw [if_pos hc,he,startTransfer_withStatus]
    have ho : s.hw.outstanding = [] := by
      by_contra ho
      rw [(h.busy ho).1] at hidle
      contradiction
    exact h.issue.start ho (fun _ => rfl)

theorem steady_resume {s : State} (h : Steady s) : Steady s.resume := by
  unfold State.resume
  rcases deviceResume_cases s.chan with he | ⟨_,hst,_,he⟩
  · rw [he]
    refine h.of_chan h.wf ?_ rfl ?_ rfl rfl rfl (fun _ => id) h.request
    · simp [State.call]
    · simp [State.call]
  · rw [he,startTransfer_withStatus]
    have ho : s.hw.outstanding = [] := by
      by_contra ho
      rw [(h.busy ho).1] at hst
      contradiction
    exact h.start ho (fun _ => rfl)

/-- The first thing an interrupt does: its chunk is done. -/
theorem Steady.doneInt {s : State} (h : Steady s) {x : Started} {irq : Irq}
    {ps : List (Started × Irq)} (hp : s.hw.pending = (x,irq) :: ps) :
    irq = .done ∧ s.chan.descIssued ≠ [] ∧
    (State.record { s with hw := { s.hw with pending := ps } } (.doneInt x)).hw.outstanding = [] ∧
    Steady (State.record { s with hw := { s.hw with pending := ps } } (.doneInt x)) := by
  have hirq : irq = .done := h.irqs (x,irq) (by rw [hp]; exact List.mem_cons_self)
  have hout : s.hw.outstanding = x :: (ps.map Prod.fst ++ s.hw.running) := by
    simp [Hw.outstanding,hp]
  obtain ⟨hb,hne,y,hy⟩ := h.busy (by rw [hout]; exact List.cons_ne_nil _ _)
  have hnil : ps.map Prod.fst ++ s.hw.running = [] := by
    rw [hout] at hy
    exact (List.cons.inj hy).2
  refine ⟨hirq,hne,hnil,h.wf,?_,fun hne' => absurd hnil hne',?_,h.request,?_,?_⟩
  · obtain ⟨pre,cur,used,hprog⟩ := h.progress
    rw [hout] at hprog
    exact ⟨pre,cur,used,hprog.doneInt⟩
  · intro p hmem
    exact h.irqs p (by rw [hp]; exact List.mem_cons_of_mem _ hmem)
  · intro e hmem
    obtain ⟨hprep,hchunk⟩ := h.origin e (by simpa [issues] using hmem)
    exact ⟨List.mem_append_left _ hprep,hchunk⟩
  · simpa [completions] using h.moved

theorem Steady.complete {s : State} (h : Steady s) (ho : s.hw.outstanding = []) {d : Desc}
    {rest : List Desc} (hi : s.chan.descIssued = d :: rest) (hd : d.chunk = []) :
    Steady (State.record { s with chan := vchanCookieComplete d rest s.chan } (.complete d)) := by
  refine ⟨wf_vchanCookieComplete h.wf hi,?_,fun hne => absurd ho hne,h.irqs,h.request,?_,?_⟩
  · have hprog := h.progress
    rw [ho,hi] at hprog
    obtain ⟨pre,cur,used,hprog⟩ := hprog
    obtain ⟨e,hprog⟩ := hprog.complete hd
    change InProgress _ rest s.hw.outstanding
    rw [ho]
    exact ⟨pre ++ [e],rest,[],hprog⟩
  · intro e hmem
    obtain ⟨hp,hne⟩ := h.origin e (by simpa [issues,vchanCookieComplete] using hmem)
    exact ⟨List.mem_append_left _ hp,hne⟩
  · have hm := h.moved
    simp [completions,vchanCookieComplete] at hm ⊢
    exact hm

theorem steady_continueTransfer {s : State} (h : Steady s) (ho : s.hw.outstanding = []) {d : Desc}
    {rest : List Desc} (hi : s.chan.descIssued = d :: rest) :
    Steady (s.call (continueTransfer d rest s.chan)) := by
  have hzero := (h.wf.issued d (by rw [hi]; exact List.mem_cons_self)).alloc_eq_zero
  have hst : ∀ c : Chan, (startTransfer c).2 ≠ none →
      (if (startTransfer c).2.isSome then Status.busy else Status.idle) = .busy := by
    intro c hne
    rw [if_pos (Option.isSome_iff_ne_none.mpr hne)]
  unfold continueTransfer
  by_cases hd : d.chunk = []
  · rw [if_pos (hzero.mpr hd)]
    have hs := (h.complete ho hi hd).start ho (hst _)
    have heq : ∀ r : Chan × Option Started,
        r.1.descCompleted = (vchanCookieComplete d rest s.chan).descCompleted →
        s.call r = (State.record { s with chan := vchanCookieComplete d rest s.chan }
          (.complete d)).call r := by
      intro r hr
      simp [State.call,State.record,hr,vchanCookieComplete]
    rw [heq _ (by simp)]
    exact hs
  · rw [if_neg (fun hz => hd (hzero.mp hz))]
    exact h.start ho (hst _)

theorem steady_interrupt {s : State} (h : Steady s) {x : Started} {irq : Irq}
    {ps : List (Started × Irq)} (hp : s.hw.pending = (x,irq) :: ps) :
    Steady (s.interrupt x irq ps) := by
  obtain ⟨rfl,hne,ho,hm⟩ := h.doneInt hp
  obtain ⟨d,rest,hi⟩ := List.exists_cons_of_ne_nil hne
  simp only [State.interrupt]
  rcases doneInterrupt_cons hi with ⟨_,he⟩ | ⟨hreq,_⟩ | ⟨_,he⟩
  · rw [he]
    exact steady_continueTransfer hm ho hi
  · exact absurd hreq h.request
  · rw [he]
    refine hm.of_chan (h.wf.of_lists rfl rfl) ?_ rfl ?_ rfl rfl rfl (fun hne => absurd ho hne) (by simp)
    · simp [State.call]
    · simp [State.call]

theorem step_steady {chip : Chip} {s t : State} {op : Op} (h : Steady s) (hp : s.Prepared)
    (hg : Undisturbed s op) (he : step chip s op = some t) : Steady t := by
  have hwf := step_wf h.wf hp he
  cases op with
  | config c => cases he; exact h.of_chan hwf rfl rfl rfl rfl rfl rfl (fun _ => id) h.request
  | prep x =>
    cases he
    rcases prep_cases chip x s with he | ⟨d,hd,he⟩ <;> rw [he]
    · exact h
    · refine ⟨h.wf,?_,h.busy,h.irqs,h.request,?_,?_⟩
      · obtain ⟨pre,cur,used,hprog⟩ := h.progress
        exact ⟨pre,cur,used,hprog.other (.inl ⟨d,rfl⟩)⟩
      · intro e hmem
        have hmem' : e = d ∨ e ∈ s.prepared ++ s.chan.descSubmitted ++ issues s.log := by
          simp only [record_prepared,record_chan,record_log,issues,List.flatMap_append,
            List.mem_append,List.mem_singleton] at hmem ⊢
          simp only [List.flatMap_singleton,List.not_mem_nil,or_false] at hmem
          tauto
        rcases hmem' with rfl | hmem'
        · exact ⟨List.mem_append_right _ (List.mem_singleton_self _),(deviceTransfer_fresh hd).1.chunk_ne⟩
        · obtain ⟨hprep,hne⟩ := h.origin e hmem'
          exact ⟨List.mem_append_left _ hprep,hne⟩
      · simpa [completions] using h.moved
  | submit vd =>
    obtain ⟨d,hd,_,rfl⟩ := step_submit_some he
    refine ⟨hwf,?_,h.busy,h.irqs,h.request,?_,?_⟩
    · obtain ⟨pre,cur,used,hprog⟩ := h.progress
      exact ⟨pre,cur,used,hprog.other (.inr ⟨d,rfl⟩)⟩
    · intro e hmem
      have hmem' : e ∈ s.prepared ++ s.chan.descSubmitted ++ issues s.log := by
        simp only [State.submit,txSubmit,record_prepared,record_chan,record_log,issues,
          List.flatMap_append,List.mem_append,List.mem_singleton] at hmem ⊢
        simp only [List.flatMap_singleton,List.not_mem_nil,or_false] at hmem
        rcases hmem with (hmem | hmem | rfl) | hmem
        · exact .inl (.inl (List.mem_of_mem_erase hmem))
        · exact .inl (.inr hmem)
        · exact .inl (.inl hd)
        · exact .inr hmem
      obtain ⟨hprep,hne⟩ := h.origin e hmem'
      exact ⟨List.mem_append_left _ hprep,hne⟩
    · simpa [completions,txSubmit] using h.moved
  | issuePending => cases he; exact steady_issuePending h
  | pause =>
    cases he
    rcases devicePause_cases s.chan with he | ⟨_,_,_,he⟩ <;> rw [he] at hwf ⊢
    · exact h
    · exact h.of_chan hwf rfl rfl rfl rfl rfl rfl (fun _ => id) (by simp)
  | resume => cases he; exact steady_resume h
  | terminateAll st => exact hg.elim
  | finish irq =>
    have hout := step_outstanding he
    obtain ⟨x,rest,hr,rfl⟩ := step_finish_some he
    have hout' : (Hw.mk rest (s.hw.pending ++ [(x,irq)]) (some irq)).outstanding =
        s.hw.outstanding := by simpa [opStart] using hout
    refine ⟨h.wf,?_,?_,?_,h.request,h.origin,h.moved⟩
    · rw [hout']
      exact h.progress
    · rw [hout']
      exact h.busy
    · intro p hmem
      rcases List.mem_append.mp hmem with hmem | hmem
      · exact h.irqs p hmem
      · rw [List.mem_singleton.mp hmem]
        exact hg
  | interrupt =>
    obtain ⟨x,irq,ps,hp',rfl⟩ := step_interrupt_some he
    exact steady_interrupt h hp'

/-! ## Exactly once -/

/-- Every issued descriptor whose last done was handled was completed once. -/
def CompletedOnce (s : State) : Prop :=
  ∀ pre d post, issues s.log = pre ++ d :: post →
    plan (pre ++ [d]) <+: (dones s.log).map Started.key → (completions s.log).count d.vd = 1

/-- A spent head waits for an interrupt. -/
def Awaited (s : State) : Prop :=
  ∀ d rest, s.chan.descIssued = d :: rest → d.chunk = [] → s.hw.outstanding ≠ []

theorem Consumes.map_vd (h : Consumes cur used queue) : cur.map Desc.vd = queue.map Desc.vd := by
  cases h with
  | nil => rfl
  | cons us hvd _ => rw [List.map_cons,List.map_cons,hvd]

theorem Steady.issues_nodup {s : State} (h : Steady s) (hd : s.Distinct) :
    ((issues s.log).map Desc.vd).Nodup := by
  obtain ⟨pre,cur,used,hprog⟩ := h.progress
  rw [hprog.issued,List.map_append,← hprog.completed,← h.moved,hprog.queue.map_vd,← List.map_append]
  have hnodup : ((s.chan.descIssued ++ s.chan.descCompleted).map Desc.vd).Nodup := by
    have hv := (List.nodup_append.mp hd.nodup).2.1
    rw [Chan.vds,Chan.queued,List.append_assoc,List.map_append] at hv
    exact (List.nodup_append.mp hv).2.1
  exact (List.perm_append_comm.map Desc.vd).nodup_iff.mp hnodup

theorem Progress.not_completed {q : List Desc} {post : List Desc}
    (h : Progress log q out pre cur used) {m : List Desc} (hcur : cur = m ++ d :: post) (hd : d.chunk ≠ [])
    (hpre : plan (pre ++ m ++ [d]) <+: (dones log).map Started.key) :
    m = [] ∧ out = [] ∧ ∃ f rest, q = f :: rest ∧ f.chunk = [] := by
  have hdlen := List.length_pos_iff.mpr hd
  have hlen := hpre.length_le
  have hstarted := congrArg List.length h.started
  have hdone := congrArg List.length h.done
  rw [List.append_assoc,plan_append,plan_append,plan_singleton] at hlen
  simp only [List.length_append,List.length_map] at hlen hstarted hdone
  have hq := h.queue
  rw [hcur] at hq
  cases m with
  | nil =>
    obtain _ | @⟨_,f,_,us,_,hek⟩ := hq
    have hek' := congrArg List.length hek
    simp only [List.length_append,List.length_map,plan,List.flatMap_nil,List.length_nil]
      at hlen hstarted hek'
    refine ⟨rfl,List.length_eq_zero_iff.mp (by omega),f,post,rfl,?_⟩
    exact List.length_eq_zero_iff.mp (by omega)
  | cons e m =>
    rw [List.cons_append] at hq
    obtain _ | @⟨_,f,_,us,_,hek⟩ := hq
    have hek' := congrArg List.length hek
    simp only [List.length_append,List.length_map,plan,List.flatMap_cons] at hlen hstarted hek'
    omega

theorem completedOnce_iff_awaited {s : State} (h : Steady s) (hd : s.Distinct) :
    CompletedOnce s ↔ Awaited s := by
  have hnodup := h.issues_nodup hd
  obtain ⟨pre,cur,used,hprog⟩ := h.progress
  constructor
  · intro hc d rest hi hchunk ho
    obtain ⟨_,hissued,hcompleted,hqueue,hstarted,hdone⟩ := hprog
    rw [hi] at hqueue
    obtain _ | @⟨e,_,_,us,hvd,hek⟩ := hqueue
    rw [hchunk,List.append_nil] at hek
    rw [ho,List.append_nil] at hdone
    have hkeys : (dones s.log).map Started.key = plan (pre ++ [e]) := by
      rw [← hdone,hstarted,plan_append,plan_singleton,hek,hvd]
    have hcount := hc pre e rest hissued (hkeys.symm ▸ List.prefix_rfl)
    rw [hissued,List.map_append] at hnodup
    have hnot : e.vd ∉ pre.map Desc.vd := by
      intro hmem
      exact (List.nodup_append.mp hnodup).2.2 _ hmem _ (List.mem_map_of_mem List.mem_cons_self) rfl
    rw [hcompleted,List.count_eq_zero_of_not_mem hnot] at hcount
    contradiction
  · intro ha pre' d post hi hpre
    have hdne := (h.origin d (List.mem_append_right _ (by rw [hi]; simp))).2
    -- a descriptor that is not completed is the head, waiting for its last interrupt
    have hnot : ∀ m, pre' = pre ++ m → cur ≠ m ++ d :: post := by
      intro m hm hcur
      rw [hm] at hpre
      obtain ⟨_,ho,f,rest,hq,hf⟩ := hprog.not_completed hcur hdne hpre
      exact ha f rest hq hf ho
    have hmem : d.vd ∈ completions s.log := by
      rw [hprog.completed]
      rcases List.append_eq_append_iff.mp (hprog.issued.symm.trans hi) with ⟨m,hm,hcur⟩ | ⟨m,hm,hm'⟩
      · exact absurd hcur (hnot m hm)
      · cases m with
        | nil => exact absurd hm'.symm (hnot [] (by rw [hm,List.append_nil,List.append_nil]))
        | cons e m =>
          rw [List.cons_append] at hm'
          obtain ⟨rfl,_⟩ := List.cons.inj hm'
          rw [hm]
          simp
    have hsub : (completions s.log).Sublist ((issues s.log).map Desc.vd) := by
      rw [hprog.completed,hprog.issued,List.map_append]
      exact List.sublist_append_left _ _
    exact List.count_eq_one_of_mem (hnodup.sublist hsub) hmem

/-- No pause is pending when the done of the head's last chunk is handled. -/
def Unpaused (s : State) (op : Op) : Prop :=
  op = .interrupt → ∀ d rest, s.chan.descIssued = d :: rest → d.chunk = [] →
    s.chan.request ≠ .pause

theorem Awaited.of_same {s t : State} (h : Awaited s) (hi : t.chan.descIssued = s.chan.descIssued)
    (ho : t.hw.outstanding = s.hw.outstanding) : Awaited t := by
  rw [Awaited,hi,ho]
  exact h

theorem awaited_start {s : State} {c : Chan} {r : Chan × Option Started}
    (hc : ∀ d rest, c.descIssued = d :: rest → d.chunk ≠ [])
    (hi : r.1.descIssued = (startTransfer c).1.descIssued) (hr : r.2 = (startTransfer c).2) :
    Awaited (s.call r) := by
  intro d rest hd hchunk
  rw [call_chan,hi] at hd
  rw [call_outstanding,hr]
  rcases startTransfer_cases c with ⟨he,_⟩ | ⟨e,es,k,ks,_,_,he⟩ <;> rw [he] at hd ⊢
  · exact absurd hchunk (hc d rest hd)
  · simp

theorem awaited_interrupt {s : State} (h : Steady s) {x : Started} {irq : Irq}
    {ps : List (Started × Irq)} (hp : s.hw.pending = (x,irq) :: ps) (hg : Unpaused s .interrupt) :
    Awaited (s.interrupt x irq ps) := by
  obtain ⟨rfl,hne,ho,hm⟩ := h.doneInt hp
  obtain ⟨d,rest,hi⟩ := List.exists_cons_of_ne_nil hne
  have hzero := (h.wf.issued d (by rw [hi]; exact List.mem_cons_self)).alloc_eq_zero
  simp only [State.interrupt]
  rcases doneInterrupt_cons hi with ⟨_,he⟩ | ⟨hreq,_⟩ | ⟨hreq,he⟩
  · rw [he]
    refine awaited_start ?_ rfl rfl
    intro e es he'
    split at he'
    · exact (h.wf.rest hi e (by rw [show rest = e :: es from he']; exact List.mem_cons_self)).2
    · rename_i hz
      rw [hi] at he'
      obtain ⟨rfl,_⟩ := List.cons.inj he'
      exact fun hd => hz (hzero.mpr hd)
  · exact absurd hreq h.request
  · rw [he]
    intro e es he' hchunk
    rw [call_chan,hi] at he'
    obtain ⟨rfl,_⟩ := List.cons.inj he'
    exact absurd hreq (hg rfl d rest hi hchunk)

theorem step_awaited {chip : Chip} {s t : State} {op : Op} (h : Steady s) (ha : Awaited s)
    (hg : Undisturbed s op) (hu : Unpaused s op) (he : step chip s op = some t) : Awaited t := by
  have hquiet : s.chan.status ≠ .busy → s.hw.outstanding = [] := by
    intro hst
    by_contra ho
    exact hst (h.busy ho).1
  cases op with
  | config c => cases he; exact ha
  | prep x =>
    cases he
    rcases prep_cases chip x s with he | ⟨d,_,he⟩ <;> rw [he] <;> exact ha
  | submit vd =>
    obtain ⟨d,_,_,rfl⟩ := step_submit_some he
    exact ha
  | pause =>
    cases he
    rcases devicePause_cases s.chan with he | ⟨_,_,_,he⟩ <;> rw [he] <;> exact ha
  | terminateAll st => exact hg.elim
  | finish irq =>
    have hout := step_outstanding he
    obtain ⟨x,rest,_,rfl⟩ := step_finish_some he
    exact ha.of_same rfl (by simpa [opStart] using hout)
  | interrupt =>
    obtain ⟨x,irq,ps,hp,rfl⟩ := step_interrupt_some he
    exact awaited_interrupt h hp hu
  | resume =>
    cases he
    unfold State.resume
    rcases deviceResume_cases s.chan with he | ⟨_,hst,_,he⟩ <;> rw [he]
    · exact ha.of_same rfl (by simp)
    · have ho := hquiet (by simp [hst])
      exact awaited_start (c := { s.chan with status := .busy })
        (fun d rest hi hd => ha d rest hi hd ho) rfl rfl
  | issuePending =>
    cases he
    -- behind an issued head nothing changes; in front of submitted descriptors none is spent
    have hhead : ∀ d rest, s.chan.descIssued ++ s.chan.descSubmitted = d :: rest →
        d.chunk = [] → s.hw.outstanding ≠ [] := by
      intro d rest hi hd
      cases hiss : s.chan.descIssued with
      | nil =>
        rw [hiss,List.nil_append] at hi
        exact absurd hd (h.wf.submitted d (by rw [hi]; exact List.mem_cons_self)).2
      | cons e es =>
        rw [hiss,List.cons_append] at hi
        obtain ⟨rfl,_⟩ := List.cons.inj hi
        exact ha e es hiss hd
    unfold State.issuePending
    rcases deviceIssuePending_cases s.chan with ⟨hc,_⟩ | ⟨hc,_,he⟩ | ⟨hc,_,_,hidle,he⟩
    · rw [hc]
      exact ha
    · rw [if_pos hc,he]
      intro d rest hi hd
      simpa using hhead d rest hi hd
    · rw [if_pos hc,he]
      have ho := hquiet (by simp [hidle])
      exact awaited_start (c := { vchanIssuePending s.chan with status := .busy })
        (fun d rest hi hd => hhead d rest hi hd ho) rfl rfl

/-- A pause that meets the last done leaves a spent head behind that waits for nothing. -/
theorem unpaused_of_awaited {chip : Chip} {s t : State} {op : Op} (h : Steady s)
    (he : step chip s op = some t) (ha : Awaited t) : Unpaused s op := by
  rintro rfl d rest hi hd hreq
  obtain ⟨x,irq,ps,hp,rfl⟩ := step_interrupt_some he
  obtain ⟨rfl,_,ho,_⟩ := h.doneInt hp
  simp only [State.interrupt,doneInterrupt_pause hi hreq] at ha
  refine ha d rest hi hd ?_
  rw [call_outstanding]
  simpa using ho

/-- The invariants of an undisturbed run together. -/
def Ordered (s : State) : Prop := Steady s ∧ s.Prepared ∧ s.Distinct

theorem ordered_init (id : ℕ) (dir : Dir) (llMax : ℕ) : Ordered (State.init id dir llMax) :=
  ⟨steady_init id dir llMax,by simp [State.Prepared,State.init],distinct_init id dir llMax⟩

theorem step_ordered {chip : Chip} {s t : State} {op : Op} (h : Ordered s)
    (hg : Undisturbed s op) (he : step chip s op = some t) : Ordered t :=
  ⟨step_steady h.1 h.2.1 hg he,step_prepared h.2.1 he,step_distinct h.2.2 he⟩

/-- In every run without termination and aborts: the started chunks are a prefix of the
chunks of the issued descriptors, as they were prepared and in issue order; each start
finds every earlier chunk done, and each completion follows the last done of its
descriptor; descriptors are completed in issue order and at most once. A descriptor whose
last done was handled is always completed exactly when no pause ever meets such a done. -/
theorem inOrder {chip : Chip} {id : ℕ} {dir : Dir} {llMax : ℕ} {t : State} {ops : List Op}
    (hr : Runs (step chip) Undisturbed (State.init id dir llMax) ops t) :
    (starts t.log).map Started.key <+: plan (issues t.log) ∧
    (∀ d ∈ issues t.log, Event.prep d ∈ t.log) ∧
    Always Orderly t.log ∧
    completions t.log <+: (issues t.log).map Desc.vd ∧
    ((issues t.log).map Desc.vd).Nodup ∧
    (Along (step chip) CompletedOnce (State.init id dir llMax) ops ↔
      Guarded (step chip) Unpaused (State.init id dir llMax) ops) := by
  obtain ⟨hs,_,hd⟩ := hr.invariant (fun _ _ _ => step_ordered) (ordered_init id dir llMax)
  obtain ⟨pre,cur,used,hprog⟩ := hs.progress
  refine ⟨hprog.prefix_plan,?_,hprog.orderly,?_,hs.issues_nodup hd,?_⟩
  · intro d hmem
    exact (hs.origin d (List.mem_append_right _ hmem)).1
  · rw [hprog.completed,hprog.issued,List.map_append]
    exact List.prefix_append _ _
  · refine along_iff_guarded (I := fun s => Ordered s ∧ Awaited s) ?_ ?_ ?_ hr
      ⟨ordered_init id dir llMax,fun _ _ h => absurd h.symm (List.cons_ne_nil _ _)⟩
    · rintro s ⟨⟨hs,_,hd⟩,ha⟩
      exact (completedOnce_iff_awaited hs hd).mpr ha
    · rintro s op t ⟨hi,ha⟩ hg hu he
      exact ⟨step_ordered hi hg he,step_awaited hi.1 ha hg hu he⟩
    · rintro s op t ⟨hi,_⟩ hg he hc
      obtain ⟨hs,_,hd⟩ := step_ordered hi hg he
      exact unpaused_of_awaited hi.1 he ((completedOnce_iff_awaited hs hd).mp hc)

/-- A spent head with nothing outstanding is never completed. -/
theorem never_completed {chip : Chip} {s : State} {d : Desc} {rest : List Desc} (h : Ordered s)
    (ho : s.hw.outstanding = []) (hi : s.chan.descIssued = d :: rest) (hd : d.chunk = []) {ops : List Op} {t : State}
    (hr : Runs (step chip) Undisturbed s ops t) : d.vd ∉ completions t.log := by
  have hinv : Ordered t ∧ t.hw.outstanding = [] ∧ ∃ rest, t.chan.descIssued = d :: rest := by
    refine hr.invariant (I := fun t => Ordered t ∧ t.hw.outstanding = [] ∧
      ∃ rest, t.chan.descIssued = d :: rest) ?_ ⟨h,ho,rest,hi⟩
    rintro s op t ⟨hs,ho,rest,hi⟩ hg he
    have hop : op ≠ .interrupt := by
      rintro rfl
      obtain ⟨x,irq,ps,hpend,_⟩ := step_interrupt_some he
      simp [Hw.outstanding,hpend] at ho
    obtain ⟨hn,hheld⟩ := held_of_blocked (.inr ⟨d,rest,hi,hd⟩) hop he
    obtain ⟨l,hl,_⟩ := hheld.lists
    refine ⟨step_ordered hs hg he,?_,rest ++ l,?_⟩
    · rw [step_outstanding he,if_neg hop,ho,hn]
      rfl
    · rw [hl,hi,List.cons_append]
  obtain ⟨⟨hs,_,hdist⟩,_,rest,hi⟩ := hinv
  rw [← hs.moved]
  intro hmem
  have hv := (List.nodup_append.mp hdist.nodup).2.1
  rw [Chan.vds,Chan.queued,List.append_assoc,List.map_append,List.map_append,hi] at hv
  exact (List.nodup_append.mp (List.nodup_append.mp hv).2.1).2.2 d.vd
    (List.mem_map_of_mem List.mem_cons_self) _ hmem rfl

theorem pausedOnLast_undisturbed (s : State) : ∀ op ∈ pausedOnLast, Undisturbed s op := by
  simp [pausedOnLast,Undisturbed]

theorem pausedBetween_undisturbed (s : State) : ∀ op ∈ pausedBetween, Undisturbed s op := by
  simp [pausedBetween,Undisturbed]

theorem pausedBetween_unpaused :
    Guarded (step plainChip) Unpaused (State.init 0 .write 1) pausedBetween := by
  have hother : ∀ {s : State} {op : Op}, op ≠ .interrupt → Unpaused s op :=
    fun hne heq => absurd heq hne
  have hnone : ∀ {s : State} {op : Op}, s.chan.request ≠ .pause → Unpaused s op :=
    fun hreq _ _ _ _ _ => hreq
  refine guarded_cons (hother (by decide)) rfl (guarded_cons (hother (by decide)) rfl
    (guarded_cons (hother (by decide)) rfl (guarded_cons (hother (by decide)) rfl
      (guarded_cons (hother (by decide)) rfl (guarded_cons (hother (by decide)) rfl
        (guarded_cons (hother (by decide)) rfl (guarded_cons (hother (by decide)) rfl ?_)))))))
  -- the pause meets a done with the second chunk still to come
  refine guarded_cons (fun _ d rest hi hd => ?_) rfl ?_
  · cases hi
    contradiction
  exact guarded_cons (hother (by decide)) rfl (guarded_cons (hother (by decide)) rfl
    (guarded_cons (hnone (by decide)) rfl (guarded_cons (hother (by decide)) rfl
      (guarded_cons (hnone (by decide)) rfl trivial))))

theorem pausedOnLast_inOrder :
    (Along (step plainChip) CompletedOnce (State.init 0 .write 4) pausedOnLast ↔
      Guarded (step plainChip) Unpaused (State.init 0 .write 4) pausedOnLast) ∧
    ∃ t, Runs (step plainChip) Undisturbed (State.init 0 .write 1) pausedBetween t ∧
      (starts t.log).map Started.key = plan (issues t.log) ∧ completions t.log = [0,1] ∧
      Along (step plainChip) CompletedOnce (State.init 0 .write 1) pausedBetween := by
  have hr : Runs (step plainChip) Undisturbed (State.init 0 .write 4) pausedOnLast _ :=
    runs_of_exec (guarded_of_forall pausedOnLast_undisturbed _) rfl
  have hb : Runs (step plainChip) Undisturbed (State.init 0 .write 1) pausedBetween _ :=
    runs_of_exec (guarded_of_forall pausedBetween_undisturbed _) rfl
  exact ⟨(inOrder hr).2.2.2.2.2,_,hb,rfl,rfl,
    (inOrder hb).2.2.2.2.2.mpr pausedBetween_unpaused⟩

/-- The descriptor paused on its last chunk and resumed is done and never completed. -/
theorem pausedOnLast_never_completed : ∃ t,
    Runs (step plainChip) Undisturbed (State.init 0 .write 4) pausedOnLast t ∧
    (issues t.log).map Desc.vd = [0] ∧ plan (issues t.log) = (dones t.log).map Started.key ∧
    ∀ ops u, Runs (step plainChip) Undisturbed t ops u → 0 ∉ completions u.log := by
  have hr : Runs (step plainChip) Undisturbed (State.init 0 .write 4) pausedOnLast _ :=
    runs_of_exec (guarded_of_forall pausedOnLast_undisturbed _) rfl
  refine ⟨_,hr,rfl,rfl,?_⟩
  intro ops u hu
  have hs := hr.invariant (fun _ _ _ => step_ordered) (ordered_init 0 .write 4)
  exact never_completed hs rfl rfl rfl hu

end AkidaEdma.DwEdma
