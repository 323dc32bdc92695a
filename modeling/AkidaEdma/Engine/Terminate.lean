import AkidaEdma.Engine.Queue

/-! # What termination leaves behind

Terminating a channel takes no descriptor off its lists. Whether a chunk that was queued
at that moment is ever started depends on what is queued behind the head and on the
interrupts still to come; the condition for never is exact.
-/
namespace AkidaEdma.DwEdma
open Transition

/-- The head of `desc_issued` has no chunk left to start. -/
def Chan.Spent (c : Chan) : Prop := ∃ d rest, c.descIssued = d :: rest ∧ d.chunk = []

/-- Along every continuation, no chunk of a descriptor of `old` is started. -/
def Discarded (chip : Chip) (old : List ℕ) (s : State) : Prop :=
  ∀ ops t, Runs (step chip) free s ops t → ∀ x ∈ t.starts.drop s.starts.length, x.vd ∉ old

def Gone (old : List ℕ) (ds : List Desc) : Prop := ∀ d ∈ ds, d.vd ∈ old → d.chunk = []

/-- The states from which nothing of `old` is started any more. -/
inductive Doomed (old : List ℕ) (s : State) : Prop
  | gone (h : Gone old (s.prepared ++ s.chan.queued))
  | wedged (ho : s.hw.outstanding = []) (hs : s.chan.Spent)
  | stop (hr : s.chan.request = .stop)
      (h : Gone old (s.prepared ++ s.chan.descSubmitted ++ s.chan.descIssued.tail))
  | abort (hr : s.chan.request = .pause) (hi : s.chan.status = .idle)
      (hp : ∃ x ps, s.hw.pending = (x,.abort) :: ps)
      (h : Gone old (s.prepared ++ s.chan.descSubmitted ++ s.chan.descIssued.tail))
  | done (hr : s.chan.request = .pause) (hi : s.chan.status = .idle) (hs : s.chan.Spent)
      (hp : ∃ x, s.hw.pending = [(x,.done)]) (hw : s.hw.running = [])

/-- What an operation does to a channel that starts nothing. -/
structure Held (s t : State) : Prop where
  lists : ∃ l, t.chan.descIssued = s.chan.descIssued ++ l ∧
    ∀ e ∈ t.prepared ++ t.chan.descSubmitted ++ l,
      e ∈ s.prepared ++ s.chan.descSubmitted ∨ e.vd = s.nextVd
  request : s.chan.request ≠ .none →
    t.chan.request = s.chan.request ∨ (s.chan.status = .busy ∧ t.chan.request = .stop)
  status : s.chan.request ≠ .none → t.chan.status = s.chan.status ∨ t.chan.status = .idle
  hw : (t.hw.pending = s.hw.pending ∧ t.hw.running = s.hw.running) ∨
    ∃ x irq, x ∈ s.hw.running ∧ t.hw.pending = s.hw.pending ++ [(x,irq)]

theorem Held.of_lists {s t : State} (hp : t.prepared = s.prepared)
    (hs : t.chan.descSubmitted = s.chan.descSubmitted) (hi : t.chan.descIssued = s.chan.descIssued)
    (hr : s.chan.request ≠ .none →
      t.chan.request = s.chan.request ∨ (s.chan.status = .busy ∧ t.chan.request = .stop))
    (hst : s.chan.request ≠ .none → t.chan.status = s.chan.status ∨ t.chan.status = .idle)
    (hw : (t.hw.pending = s.hw.pending ∧ t.hw.running = s.hw.running) ∨
      ∃ x irq, x ∈ s.hw.running ∧ t.hw.pending = s.hw.pending ++ [(x,irq)]) : Held s t := by
  refine ⟨⟨[],by rw [hi,List.append_nil],?_⟩,hr,hst,hw⟩
  intro e he
  rw [hp,hs,List.append_nil] at he
  exact Or.inl he

/-- With a request pending or the head spent, only an interrupt can start a chunk. -/
theorem held_of_blocked {chip : Chip} {s t : State} {op : Op}
    (hb : s.chan.request ≠ .none ∨ s.chan.Spent) (hop : op ≠ .interrupt)
    (he : step chip s op = some t) : opStart s op = none ∧ Held s t := by
  cases op with
  | config c => cases he; exact ⟨rfl,.of_lists rfl rfl rfl (fun _ => .inl rfl) (fun _ => .inl rfl) (.inl ⟨rfl,rfl⟩)⟩
  | prep x =>
    cases he
    refine ⟨rfl,?_⟩
    rcases prep_cases chip x s with he | ⟨d,hd,he⟩ <;> rw [he]
    · exact .of_lists rfl rfl rfl (fun _ => .inl rfl) (fun _ => .inl rfl) (.inl ⟨rfl,rfl⟩)
    · refine ⟨⟨[],(List.append_nil _).symm,?_⟩,fun _ => .inl rfl,fun _ => .inl rfl,.inl ⟨rfl,rfl⟩⟩
      intro e hmem
      simp only [record_prepared,record_chan,List.append_nil,List.mem_append,
        List.mem_singleton] at hmem
      rcases hmem with (hmem | rfl) | hmem
      · exact .inl (List.mem_append_left _ hmem)
      · exact .inr (deviceTransfer_fresh hd).2
      · exact .inl (List.mem_append_right _ hmem)
  | submit vd =>
    obtain ⟨d,hd,_,rfl⟩ := step_submit_some he
    refine ⟨rfl,⟨[],(List.append_nil _).symm,?_⟩,fun _ => .inl rfl,fun _ => .inl rfl,.inl ⟨rfl,rfl⟩⟩
    intro e hmem
    simp only [State.submit,txSubmit,record_prepared,record_chan,List.append_nil,
      List.mem_append,List.mem_singleton] at hmem
    rcases hmem with hmem | hmem | rfl
    · exact .inl (List.mem_append_left _ (List.mem_of_mem_erase hmem))
    · exact .inl (List.mem_append_right _ hmem)
    · exact .inl (List.mem_append_left _ hd)
  | issuePending =>
    cases he
    simp only [opStart,State.issuePending]
    have hissued : Held s { s with chan := vchanIssuePending s.chan } := by
      refine ⟨⟨s.chan.descSubmitted,rfl,?_⟩,fun _ => .inl rfl,fun _ => .inl rfl,.inl ⟨rfl,rfl⟩⟩
      intro e hmem
      exact .inl (by simpa [vchanIssuePending] using hmem)
    rcases deviceIssuePending_cases s.chan with ⟨hc,he⟩ | ⟨hc,_,he⟩ | ⟨hc,_,hreq,_,he⟩
    · rw [he,hc]
      exact ⟨rfl,.of_lists rfl rfl rfl (fun _ => .inl rfl) (fun _ => .inl rfl) (.inl ⟨rfl,rfl⟩)⟩
    · rw [he,if_pos hc]
      exact ⟨rfl,hissued.1,hissued.2,hissued.3,.inl ⟨rfl,List.append_nil _⟩⟩
    · obtain ⟨d,rest,hi,hd⟩ := hb.resolve_left (fun h => h hreq)
      have hstart := startTransfer_exhausted (c := { vchanIssuePending s.chan with status := .busy })
        (show _ = d :: (rest ++ s.chan.descSubmitted) by simp [vchanIssuePending,hi]) hd
      rw [he,hstart,if_pos hc]
      exact ⟨rfl,hissued.1,fun h => absurd hreq h,fun h => absurd hreq h,.inl ⟨rfl,List.append_nil _⟩⟩
  | pause =>
    cases he
    refine ⟨rfl,?_⟩
    rcases devicePause_cases s.chan with he | ⟨_,_,hreq,he⟩ <;> rw [he]
    · exact .of_lists rfl rfl rfl (fun _ => .inl rfl) (fun _ => .inl rfl) (.inl ⟨rfl,rfl⟩)
    · exact .of_lists rfl rfl rfl (fun h => absurd hreq h) (fun h => absurd hreq h) (.inl ⟨rfl,rfl⟩)
  | resume =>
    cases he
    simp only [opStart,State.resume]
    rcases deviceResume_cases s.chan with he | ⟨_,_,hreq,he⟩ <;> rw [he]
    · exact ⟨rfl,.of_lists rfl rfl rfl (fun _ => .inl rfl) (fun _ => .inl rfl)
        (.inl ⟨rfl,List.append_nil _⟩)⟩
    · obtain ⟨d,rest,hi,hd⟩ := hb.resolve_left (fun h => h hreq)
      have hstart := startTransfer_exhausted (c := { s.chan with status := .busy }) hi hd
      rw [hstart]
      exact ⟨rfl,.of_lists rfl rfl rfl (fun h => absurd hreq h) (fun h => absurd hreq h)
        (.inl ⟨rfl,List.append_nil _⟩)⟩
  | terminateAll st =>
    cases he
    refine ⟨rfl,?_⟩
    rcases deviceTerminateAll_cases st s.chan with ⟨_,he⟩ | ⟨_,_,he⟩ | ⟨_,_,_,he⟩ | ⟨_,hst,_,he⟩ <;>
      rw [he]
    · exact .of_lists rfl rfl rfl (fun _ => .inl rfl) (fun _ => .inl rfl) (.inl ⟨rfl,rfl⟩)
    · exact .of_lists rfl rfl rfl (fun _ => .inl rfl) (fun _ => .inr rfl) (.inl ⟨rfl,rfl⟩)
    · exact .of_lists rfl rfl rfl (fun _ => .inl rfl) (fun _ => .inr rfl) (.inl ⟨rfl,rfl⟩)
    · exact .of_lists rfl rfl rfl (fun _ => .inr ⟨hst,rfl⟩) (fun _ => .inl rfl) (.inl ⟨rfl,rfl⟩)
  | finish irq =>
    obtain ⟨x,rest,hr,rfl⟩ := step_finish_some he
    exact ⟨rfl,.of_lists rfl rfl rfl (fun _ => .inl rfl) (fun _ => .inl rfl)
      (.inr ⟨x,irq,by rw [hr]; exact List.mem_cons_self,rfl⟩)⟩
  | interrupt => exact absurd rfl hop

theorem Held.spent {s t : State} (h : Held s t) (hs : s.chan.Spent) : t.chan.Spent := by
  obtain ⟨l,hl,_⟩ := h.lists
  obtain ⟨d,rest,hi,hd⟩ := hs
  exact ⟨d,rest ++ l,by rw [hl,hi,List.cons_append],hd⟩

theorem Held.pausing {s t : State} (h : Held s t) (hr : s.chan.request = .pause)
    (hi : s.chan.status = .idle) : t.chan.request = .pause ∧ t.chan.status = .idle := by
  have hne : s.chan.request ≠ .none := by rw [hr]; decide
  constructor
  · rcases h.request hne with hreq | ⟨hb,_⟩
    · rw [hreq,hr]
    · rw [hi] at hb
      contradiction
  · rcases h.status hne with hst | hst
    · rw [hst,hi]
    · exact hst

/-- What was gone behind the head stays gone behind it. -/
theorem Held.gone {s t : State} {old : List ℕ} (h : Held s t) (hold : ∀ v ∈ old, v < s.nextVd)
    (hg : Gone old (s.prepared ++ s.chan.descSubmitted ++ s.chan.descIssued.tail)) :
    Gone old (t.prepared ++ t.chan.descSubmitted ++ t.chan.descIssued.tail) := by
  obtain ⟨l,hl,hmem⟩ := h.lists
  intro e he hvd
  have hcase : e ∈ t.prepared ++ t.chan.descSubmitted ++ l ∨ e ∈ s.chan.descIssued.tail := by
    rw [hl] at he
    rcases List.mem_append.mp he with he | he
    · exact .inl (List.mem_append_left _ he)
    · cases hi : s.chan.descIssued with
      | nil =>
        rw [hi] at he
        exact .inl (List.mem_append_right _ (List.mem_of_mem_tail he))
      | cons d rest =>
        rw [hi,List.cons_append,List.tail_cons] at he
        rcases List.mem_append.mp he with he | he
        · exact .inr he
        · exact .inl (List.mem_append_right _ he)
  rcases hcase with he | he
  · rcases hmem e he with he | he
    · exact hg e (List.mem_append_left _ he) hvd
    · rw [he] at hvd
      exact absurd (hold _ hvd) (Nat.lt_irrefl _)
  · exact hg e (List.mem_append_right _ he) hvd

theorem Gone.after {old : List ℕ} {chip : Chip} {s t : State} {op : Op}
    (hg : Gone old (s.prepared ++ s.chan.queued)) (hold : ∀ v ∈ old, v < s.nextVd)
    (he : step chip s op = some t) : Gone old (t.prepared ++ t.chan.queued) := by
  intro e hmem hvd
  rcases step_moves he with ⟨x,_,rfl⟩ | ⟨d,hd,_,rfl⟩ | ⟨hm,hp,_⟩
  · rcases prep_cases chip x s with he | ⟨d,hd,he⟩ <;> rw [he] at hmem
    · exact hg e hmem hvd
    · simp only [record_prepared,record_chan,List.mem_append,List.mem_singleton] at hmem
      rcases hmem with (hmem | rfl) | hmem
      · exact hg e (List.mem_append_left _ hmem) hvd
      · rw [(deviceTransfer_fresh hd).2] at hvd
        exact absurd (hold _ hvd) (Nat.lt_irrefl _)
      · exact hg e (List.mem_append_right _ hmem) hvd
  · refine hg e ?_ hvd
    simp only [State.submit,record_prepared,record_chan,Chan.queued,txSubmit,List.mem_append,
      List.mem_singleton] at hmem ⊢
    rcases hmem with hmem | (hmem | rfl) | hmem
    · exact .inl (List.mem_of_mem_erase hmem)
    · exact .inr (.inl hmem)
    · exact .inl hd
    · exact .inr (.inr hmem)
  · rw [hp] at hmem
    rcases List.mem_append.mp hmem with hmem | hmem
    · exact hg e (List.mem_append_left _ hmem) hvd
    · obtain ⟨d,hd,hde,hdc⟩ := hm.origin e hmem
      exact hdc (hg d (List.mem_append_right _ hd) (by rw [hde]; exact hvd))

/-- The handlers that drop the head start nothing and leave the channel idle. -/
theorem interrupt_drop {s : State} {x : Started} {irq : Irq} {ps : List (Started × Irq)}
    {d : Desc} {rest : List Desc} (hp : s.hw.pending = (x,irq) :: ps)
    (hi : s.chan.descIssued = d :: rest) (hdrop : irq = .abort ∨ s.chan.request = .stop) :
    opStart s .interrupt = none ∧ (s.interrupt x irq ps).prepared = s.prepared ∧
      (s.interrupt x irq ps).chan =
        { vchanCookieComplete d rest s.chan with request := .none, status := .idle } := by
  cases irq with
  | abort => exact ⟨by simp only [opStart,hp],rfl,abortInterrupt_cons hi⟩
  | done =>
    have hreq := hdrop.resolve_left (by decide)
    have he := doneInterrupt_stop hi hreq
    refine ⟨by simp only [opStart,hp,he],rfl,?_⟩
    change (doneInterrupt s.chan).1 = _
    rw [he]

theorem doomed_of_drop {old : List ℕ} {s : State} {x : Started} {irq : Irq}
    {ps : List (Started × Irq)} (hp : s.hw.pending = (x,irq) :: ps)
    (hdrop : irq = .abort ∨ s.chan.request = .stop)
    (hg : Gone old (s.prepared ++ s.chan.descSubmitted ++ s.chan.descIssued.tail)) :
    opStart s .interrupt = none ∧ Doomed old (s.interrupt x irq ps) := by
  cases hi : s.chan.descIssued with
  | cons d rest =>
    obtain ⟨hstart,hprep,hchan⟩ := interrupt_drop hp hi hdrop
    refine ⟨hstart,.gone ?_⟩
    rw [hi,List.tail_cons,List.append_assoc] at hg
    rw [hprep,hchan]
    exact hg
  | nil =>
    rw [hi,List.tail_nil] at hg
    cases irq with
    | abort =>
      refine ⟨by simp only [opStart,hp],.gone ?_⟩
      have hchan : (s.interrupt x .abort ps).chan.queued = s.chan.descSubmitted ++ [] := by
        change (abortInterrupt s.chan).queued = _
        rw [abortInterrupt_nil hi,Chan.queued,hi]
      rw [hchan,← List.append_assoc]
      exact hg
    | done =>
      have he := doneInterrupt_nil hi
      have hchan : (s.interrupt x .done ps).chan = s.chan := by
        change (doneInterrupt s.chan).1 = _
        rw [he]
      refine ⟨by simp only [opStart,hp,he],.stop ?_ ?_⟩
      · rw [hchan]
        exact hdrop.resolve_left (by decide)
      · rw [hchan,hi]
        exact hg

/-- A step from a doomed state starts nothing of `old` and leads to a doomed state. -/
theorem step_doomed {old : List ℕ} {chip : Chip} {s t : State} {op : Op} (h : Doomed old s)
    (hold : ∀ v ∈ old, v < s.nextVd) (he : step chip s op = some t) :
    (∀ x, opStart s op = some x → x.vd ∉ old) ∧ Doomed old t := by
  have hnone : opStart s op = none → ∀ x, opStart s op = some x → x.vd ∉ old := by
    intro hn x hx
    rw [hn] at hx
    contradiction
  have hirq : op = .interrupt →
      ∃ x irq ps, s.hw.pending = (x,irq) :: ps ∧ t = s.interrupt x irq ps := by
    rintro rfl
    exact step_interrupt_some he
  have hout := step_outstanding he
  cases h with
  | gone hg =>
    refine ⟨fun x hx hmem => ?_,.gone (hg.after hold he)⟩
    obtain ⟨d,hd,hvd,hne⟩ := opStart_origin hx
    exact hne (hg d (List.mem_append_right _ hd) (by rw [hvd]; exact hmem))
  | wedged ho hs =>
    have hop : op ≠ .interrupt := by
      intro hop
      obtain ⟨x,irq,ps,hp,_⟩ := hirq hop
      simp [Hw.outstanding,hp] at ho
    obtain ⟨hn,hheld⟩ := held_of_blocked (.inr hs) hop he
    refine ⟨hnone hn,.wedged ?_ (hheld.spent hs)⟩
    rw [hout,if_neg hop,ho,hn]
    rfl
  | stop hr hg =>
    by_cases hop : op = .interrupt
    · obtain ⟨x,irq,ps,hp,rfl⟩ := hirq hop
      obtain ⟨hn,hd⟩ := doomed_of_drop hp (.inr hr) hg
      exact ⟨hnone (by rw [hop]; exact hn),hd⟩
    · have hne : s.chan.request ≠ .none := by rw [hr]; decide
      obtain ⟨hn,hheld⟩ := held_of_blocked (.inl hne) hop he
      refine ⟨hnone hn,.stop ?_ (hheld.gone hold hg)⟩
      rcases hheld.request hne with hreq | ⟨_,hreq⟩
      · rw [hreq,hr]
      · exact hreq
  | abort hr hi hp hg =>
    obtain ⟨x,ps,hp⟩ := hp
    by_cases hop : op = .interrupt
    · obtain ⟨x',irq,ps',hp',rfl⟩ := hirq hop
      rw [hp] at hp'
      cases hp'
      obtain ⟨hn,hd⟩ := doomed_of_drop hp (.inl rfl) hg
      exact ⟨hnone (by rw [hop]; exact hn),hd⟩
    · have hne : s.chan.request ≠ .none := by rw [hr]; decide
      obtain ⟨hn,hheld⟩ := held_of_blocked (.inl hne) hop he
      obtain ⟨hr',hi'⟩ := hheld.pausing hr hi
      refine ⟨hnone hn,.abort hr' hi' ?_ (hheld.gone hold hg)⟩
      rcases hheld.hw with ⟨hp',_⟩ | ⟨y,irq,_,hp'⟩ <;> rw [hp',hp]
      · exact ⟨x,ps,rfl⟩
      · exact ⟨x,ps ++ [(y,irq)],rfl⟩
  | done hr hi hs hp hw =>
    obtain ⟨x,hp⟩ := hp
    by_cases hop : op = .interrupt
    · obtain ⟨x',irq,ps,hp',rfl⟩ := hirq hop
      rw [hp] at hp'
      cases hp'
      obtain ⟨d,rest,hd,hd'⟩ := hs
      -- the done interrupt pauses the channel on its spent head, with nothing outstanding
      have hdone := doneInterrupt_pause hd hr
      subst hop
      have hn : opStart s .interrupt = none := by simp only [opStart,hp,hdone]
      refine ⟨hnone hn,.wedged ?_ ⟨d,rest,?_,hd'⟩⟩
      · rw [hout,if_pos rfl,hn]
        simp [Hw.outstanding,hp,hw]
      · change (doneInterrupt s.chan).1.descIssued = _
        rw [hdone,hd]
    · have hne : s.chan.request ≠ .none := by rw [hr]; decide
      obtain ⟨hn,hheld⟩ := held_of_blocked (.inl hne) hop he
      obtain ⟨hr',hi'⟩ := hheld.pausing hr hi
      rcases hheld.hw with ⟨hp',hw'⟩ | ⟨y,irq,hy,_⟩
      · refine ⟨hnone hn,.done hr' hi' (hheld.spent hs) ⟨x,?_⟩ ?_⟩
        · rw [hp',hp]
        · rw [hw',hw]
      · rw [hw] at hy
        exact absurd hy List.not_mem_nil

theorem step_nextVd_le {chip : Chip} {s t : State} {op : Op} (he : step chip s op = some t) :
    s.nextVd ≤ t.nextVd := by
  rcases step_moves he with ⟨x,_,rfl⟩ | ⟨d,_,_,rfl⟩ | ⟨_,_,hn⟩
  · rcases prep_cases chip x s with he | ⟨d,_,he⟩
    · exact he.symm ▸ Nat.le_refl _
    · exact he.symm ▸ Nat.le_succ _
  · exact Nat.le_refl _
  · exact Nat.le_of_eq hn.symm

theorem Doomed.discarded {old : List ℕ} {chip : Chip} {s : State} (h : Doomed old s)
    (hold : ∀ v ∈ old, v < s.nextVd) : Discarded chip old s := by
  intro ops t hr
  induction hr with
  | refl s => simp
  | @step s m t op ops _ he hr ih =>
    obtain ⟨hstart,hm⟩ := step_doomed h hold he
    have hlater := ih hm (fun v hv => Nat.lt_of_lt_of_le (hold v hv) (step_nextVd_le he))
    obtain ⟨l,hl⟩ := runs_starts_prefix hr
    rw [← hl,List.drop_left] at hlater
    rw [← hl,step_starts he,List.append_assoc,List.drop_left]
    intro x hx
    rcases List.mem_append.mp hx with hx | hx
    · exact hstart x (Option.mem_toList.mp hx)
    · exact hlater x hx

/-! ## The other states do start something -/

theorem Discarded.after {old : List ℕ} {chip : Chip} {s t : State} {op : Op}
    (h : Discarded chip old s) (he : step chip s op = some t) : Discarded chip old t := by
  intro ops u hr x hx
  refine h (op :: ops) u (.step trivial he hr) x ?_
  have hlen : t.starts.length = s.starts.length + (opStart s op).toList.length := by
    rw [step_starts he,List.length_append]
  rw [hlen,← List.drop_drop] at hx
  exact List.mem_of_mem_drop hx

theorem Discarded.not_start {old : List ℕ} {chip : Chip} {s t : State} {op : Op} {x : Started}
    (h : Discarded chip old s) (he : step chip s op = some t) (hx : opStart s op = some x) :
    x.vd ∉ old := by
  refine h [op] t (.single trivial he) x ?_
  rw [step_starts he,List.drop_left,hx]
  exact List.mem_singleton_self x

/-- On an idle channel, configuring and issuing starts the first descriptor. -/
theorem Discarded.not_idle {old : List ℕ} {chip : Chip} {s : State} {d : Desc} {rest : List Desc}
    (h : Discarded chip old s) (hreq : s.chan.request = .none) (hst : s.chan.status = .idle)
    (hi : s.chan.descIssued ++ s.chan.descSubmitted = d :: rest) (hd : d.chunk ≠ []) :
    d.vd ∉ old := by
  obtain ⟨k,ks,hk⟩ := List.exists_cons_of_ne_nil hd
  let m : State := { s with chan := deviceConfig ⟨0,0⟩ s.chan }
  have hm : Discarded chip old m := h.after (show step chip s (.config ⟨0,0⟩) = some m from rfl)
  have hstart : opStart m .issuePending = some ⟨d.vd,k,d.xferSz == 0⟩ := by
    simp only [opStart]
    rcases deviceIssuePending_cases m.chan with ⟨hc,_⟩ | ⟨_,hno,_⟩ | ⟨_,_,_,_,he⟩
    · contradiction
    · have hne : m.chan.descIssued ++ m.chan.descSubmitted ≠ [] := by
        change s.chan.descIssued ++ s.chan.descSubmitted ≠ []
        rw [hi]
        exact List.cons_ne_nil d rest
      exact absurd ⟨hne,hreq,hst⟩ hno
    · rw [he,startTransfer_cons (c := { vchanIssuePending m.chan with status := .busy }) hi hk]
  exact hm.not_start rfl hstart

theorem Discarded.not_paused {old : List ℕ} {chip : Chip} {s : State} {d : Desc} {rest : List Desc}
    (h : Discarded chip old s) (hreq : s.chan.request = .none) (hst : s.chan.status = .pause)
    (hi : s.chan.descIssued = d :: rest) (hd : d.chunk ≠ []) : d.vd ∉ old := by
  obtain ⟨k,ks,hk⟩ := List.exists_cons_of_ne_nil hd
  let m : State := { s with chan := deviceConfig ⟨0,0⟩ s.chan }
  have hm : Discarded chip old m := h.after (show step chip s (.config ⟨0,0⟩) = some m from rfl)
  have hstart : opStart m .resume = some ⟨d.vd,k,d.xferSz == 0⟩ := by
    simp only [opStart]
    rcases deviceResume_cases m.chan with he | ⟨_,_,_,he⟩
    · simp [deviceResume,m,deviceConfig,hreq,hst,EPERM] at he
    · rw [he,startTransfer_cons (c := { m.chan with status := .busy }) hi hk]
  exact hm.not_start rfl hstart

/-- On a busy channel, a termination that finds the hardware stopped makes it idle. -/
theorem Discarded.not_busy {old : List ℕ} {chip : Chip} {s : State} {d : Desc} {rest : List Desc}
    (h : Discarded chip old s) (hreq : s.chan.request = .none) (hst : s.chan.status = .busy)
    (hi : s.chan.descIssued = d :: rest) (hd : d.chunk ≠ []) : d.vd ∉ old := by
  let m : State := { s with chan := deviceConfig ⟨0,0⟩ s.chan }
  have hm : Discarded chip old m := h.after (show step chip s (.config ⟨0,0⟩) = some m from rfl)
  have hu := hm.after (show step chip m (.terminateAll .complete) = some _ from rfl)
  rcases deviceTerminateAll_cases .complete m.chan with ⟨hc,_⟩ | ⟨_,hb,_⟩ | ⟨_,_,_,he⟩ | ⟨_,_,hne,_⟩
  · contradiction
  · exact absurd hst hb
  · rw [he] at hu
    have hq : s.chan.descIssued ++ s.chan.descSubmitted = d :: (rest ++ s.chan.descSubmitted) := by
      rw [hi,List.cons_append]
    exact hu.not_idle hreq rfl hq hd
  · exact absurd rfl hne

/-- Something outstanding means that an interrupt can be handled: the oldest pending one,
or one raised now, of either kind. -/
theorem Discarded.interrupt {old : List ℕ} {chip : Chip} {s : State} (h : Discarded chip old s)
    {x : Started} {irq : Irq} {ps : List (Started × Irq)} (hp : s.hw.pending = (x,irq) :: ps) :
    Discarded chip old (s.interrupt x irq ps) :=
  h.after (step_interrupt_of chip hp)

theorem Discarded.raise {old : List ℕ} {chip : Chip} {s : State} (h : Discarded chip old s)
    (hp : s.hw.pending = []) (ho : s.hw.outstanding ≠ []) (irq : Irq) :
    ∃ hw x, hw.pending = [(x,irq)] ∧ hw.outstanding = s.hw.outstanding ∧
      Discarded chip old { s with hw := hw } := by
  have hr : s.hw.running ≠ [] := by
    intro hr
    simp [Hw.outstanding,hp,hr] at ho
  obtain ⟨x,rest,hr⟩ := List.exists_cons_of_ne_nil hr
  refine ⟨⟨rest,s.hw.pending ++ [(x,irq)],some irq⟩,x,by rw [hp]; rfl,?_,?_⟩
  · rw [outstanding_finish,Hw.outstanding,hr]
  · exact h.after (step_finish_of chip irq hr)

/-- How the fields of a channel hang together, in every reachable state. -/
structure Tied (s : State) : Prop where
  issued : s.chan.status ≠ .idle ∨ s.chan.request ≠ .none → s.chan.descIssued ≠ []
  waits : s.chan.status = .busy ∨ s.chan.request ≠ .none →
    s.hw.outstanding ≠ [] ∨ s.chan.Spent
  paused : s.chan.status = .pause → s.chan.request = .none
  unconfigured : s.chan.configured = false → s.chan.request ≠ .none → s.chan.status = .idle

theorem tied_of_idle {s : State} (hst : s.chan.status = .idle) (hreq : s.chan.request = .none) :
    Tied s := by
  refine ⟨?_,?_,?_,?_⟩ <;> simp [hst,hreq]

theorem tied_init (id : ℕ) (dir : Dir) (llMax : ℕ) : Tied (State.init id dir llMax) :=
  tied_of_idle rfl rfl

/-- Fields that matter unchanged, or the lists grown. -/
theorem Tied.of_chan {s t : State} (h : Tied s) (ho : t.hw.outstanding = s.hw.outstanding)
    (hi : ∃ l, t.chan.descIssued = s.chan.descIssued ++ l) (hst : t.chan.status = s.chan.status)
    (hreq : t.chan.request = s.chan.request)
    (hc : t.chan.configured = false → s.chan.configured = false) : Tied t := by
  obtain ⟨l,hl⟩ := hi
  refine ⟨?_,?_,?_,?_⟩ <;> rw [hst,hreq]
  · intro hs
    rw [hl]
    exact List.append_ne_nil_of_left_ne_nil (h.issued hs) l
  · intro hs
    rw [ho]
    refine (h.waits hs).imp_right ?_
    rintro ⟨d,rest,hd,hk⟩
    exact ⟨d,rest ++ l,by rw [hl,hd,List.cons_append],hk⟩
  · exact h.paused
  · exact fun hc' => h.unconfigured (hc hc')

theorem tied_start {s : State} {c : Chan} (hst : c.status = .busy) (hreq : c.request = .none)
    (hi : c.descIssued ≠ []) : Tied (s.call (startTransfer c)) := by
  refine ⟨fun _ => ?_,fun _ => ?_,?_,?_⟩
  · rcases startTransfer_cases c with ⟨he,_⟩ | ⟨d,rest,k,ks,_,_,he⟩ <;> rw [he]
    · exact hi
    · exact List.cons_ne_nil _ _
  · rcases startTransfer_cases c with ⟨he,hd⟩ | ⟨d,rest,k,ks,_,_,he⟩ <;> rw [he]
    · obtain ⟨d,rest,hc⟩ := List.exists_cons_of_ne_nil hi
      exact Or.inr ⟨d,rest,hc,hd d rest hc⟩
    · exact Or.inl (by simp)
  · simp [hst]
  · simp [hreq]

theorem tied_interrupt {s : State} {x : Started} {irq : Irq} {ps : List (Started × Irq)}
    (h : Tied s) : Tied (s.interrupt x irq ps) := by
  cases irq with
  | abort =>
    refine tied_of_idle ?_ ?_ <;> simp only [State.interrupt,call_chan]
    all_goals cases hi : s.chan.descIssued with
      | nil => rw [abortInterrupt_nil hi]
      | cons d rest => rw [abortInterrupt_cons hi]
  | done =>
    simp only [State.interrupt]
    cases hi : s.chan.descIssued with
    | nil =>
      rw [doneInterrupt_nil hi]
      refine tied_of_idle ?_ ?_
      · change s.chan.status = .idle
        by_contra hst
        exact h.issued (Or.inl hst) hi
      · change s.chan.request = .none
        by_contra hreq
        exact h.issued (Or.inr hreq) hi
    | cons d rest =>
      rcases doneInterrupt_cons hi with ⟨hreq,he⟩ | ⟨_,he⟩ | ⟨_,he⟩ <;> rw [he]
      · unfold continueTransfer
        generalize hc : (if d.chunksAlloc = 0 then vchanCookieComplete d rest s.chan else s.chan) = c
        have hcreq : c.request = .none := by
          rw [← hc]
          split <;> exact hreq
        dsimp only
        rcases startTransfer_cases c with ⟨he,_⟩ | ⟨e,es,k,ks,_,_,he⟩ <;> rw [he]
        · exact tied_of_idle rfl hcreq
        · refine ⟨?_,?_,?_,?_⟩ <;> simp [hcreq]
      · exact tied_of_idle rfl rfl
      · refine ⟨?_,?_,?_,?_⟩ <;> simp [hi]

theorem step_tied {chip : Chip} {s t : State} {op : Op} (h : Tied s)
    (he : step chip s op = some t) : Tied t := by
  cases op with
  | config c => cases he; exact h.of_chan rfl ⟨[],(List.append_nil _).symm⟩ rfl rfl (by simp [deviceConfig])
  | prep x =>
    cases he
    rcases prep_cases chip x s with he | ⟨d,_,he⟩ <;> rw [he]
    · exact h
    · exact h.of_chan rfl ⟨[],(List.append_nil _).symm⟩ rfl rfl id
  | submit vd =>
    obtain ⟨d,_,_,rfl⟩ := step_submit_some he
    exact h.of_chan rfl ⟨[],(List.append_nil _).symm⟩ rfl rfl id
  | issuePending =>
    cases he
    unfold State.issuePending
    rcases deviceIssuePending_cases s.chan with ⟨hc,_⟩ | ⟨hc,_,he⟩ | ⟨hc,hne,hreq,_,he⟩
    · rw [hc]
      exact h
    · rw [if_pos hc,he]
      exact h.of_chan (by simp) ⟨s.chan.descSubmitted,rfl⟩ rfl rfl id
    · rw [if_pos hc,he]
      exact tied_start rfl hreq hne
  | pause =>
    cases he
    rcases devicePause_cases s.chan with he | ⟨hc,hst,_,he⟩ <;> rw [he]
    · exact h
    · refine ⟨fun _ => h.issued (Or.inl (by simp [hst])),fun _ => h.waits (Or.inl hst),?_,?_⟩
      · simp [hst]
      · simp [hc]
  | resume =>
    cases he
    unfold State.resume
    rcases deviceResume_cases s.chan with he | ⟨_,hst,hreq,he⟩ <;> rw [he]
    · exact h.of_chan (by simp) ⟨[],(List.append_nil _).symm⟩ rfl rfl id
    · exact tied_start rfl hreq (h.issued (Or.inl (by simp [hst])))
  | terminateAll st =>
    cases he
    rcases deviceTerminateAll_cases st s.chan with ⟨_,he⟩ | ⟨_,_,he⟩ | ⟨_,_,_,he⟩ | ⟨hc,hst,_,he⟩ <;>
      rw [he]
    · exact h
    · exact ⟨fun hs => h.issued (by simpa using Or.inr hs),fun hs => h.waits (by simpa using Or.inr hs),
        by simp,by simp⟩
    · exact ⟨fun hs => h.issued (by simpa using Or.inr hs),fun hs => h.waits (by simpa using Or.inr hs),
        by simp,by simp⟩
    · refine ⟨fun _ => h.issued (Or.inl (by simp [hst])),fun _ => h.waits (Or.inl hst),?_,?_⟩
      · simp [hst]
      · simp [hc]
  | finish irq =>
    obtain ⟨x,rest,hr,rfl⟩ := step_finish_some he
    refine h.of_chan ?_ ⟨[],(List.append_nil _).symm⟩ rfl rfl id
    rw [outstanding_finish,Hw.outstanding,hr]
  | interrupt =>
    obtain ⟨x,irq,ps,_,rfl⟩ := step_interrupt_some he
    exact tied_interrupt h

theorem Discarded.not_drop {old : List ℕ} {chip : Chip} {s : State} {x : Started} {irq : Irq}
    {ps : List (Started × Irq)} {d e : Desc} {rest es : List Desc} (h : Discarded chip old s)
    (hp : s.hw.pending = (x,irq) :: ps) (hi : s.chan.descIssued = d :: rest)
    (hdrop : irq = .abort ∨ s.chan.request = .stop)
    (hq : rest ++ s.chan.descSubmitted = e :: es) (he : e.chunk ≠ []) : e.vd ∉ old := by
  obtain ⟨_,_,hchan⟩ := interrupt_drop hp hi hdrop
  have hq' : (s.interrupt x irq ps).chan.descIssued ++ (s.interrupt x irq ps).chan.descSubmitted =
      e :: es := by
    rw [hchan]
    exact hq
  exact (h.interrupt hp).not_idle (by rw [hchan]) (by rw [hchan]) hq' he

/-- On a spent head without a request, either interrupt moves the channel on to the next
descriptor. -/
theorem Discarded.not_next {old : List ℕ} {chip : Chip} {s : State} {d e : Desc}
    {rest es : List Desc} (h : Discarded chip old s) (hwf : s.chan.Wf)
    (hreq : s.chan.request = .none) (hi : s.chan.descIssued = d :: rest) (hd : d.chunk = [])
    (hq : rest ++ s.chan.descSubmitted = e :: es) (he : e.chunk ≠ [])
    (ho : s.hw.outstanding ≠ []) : e.vd ∉ old := by
  obtain ⟨hw,x,irq,ps,hp,hm⟩ : ∃ hw x irq ps, hw.pending = (x,irq) :: ps ∧
      Discarded chip old { s with hw := hw } := by
    cases hp : s.hw.pending with
    | nil =>
      obtain ⟨hw,x,hp,_,hm⟩ := h.raise hp ho .abort
      exact ⟨hw,x,.abort,[],hp,hm⟩
    | cons q ps => exact ⟨s.hw,q.1,q.2,ps,hp,h⟩
  cases irq with
  | abort => exact hm.not_drop hp hi (.inl rfl) hq he
  | done =>
    have hzero := (hwf.issued d (by rw [hi]; exact List.mem_cons_self)).alloc_eq_zero.mpr hd
    have hdone := doneInterrupt_none hi hreq
    simp only [continueTransfer,if_pos hzero] at hdone
    cases hrest : rest with
    | cons f fs =>
      rw [hrest,List.cons_append] at hq
      obtain ⟨rfl,_⟩ := List.cons.inj hq
      obtain ⟨k,ks,hk⟩ := List.exists_cons_of_ne_nil he
      have hs := startTransfer_cons (c := vchanCookieComplete d rest s.chan)
        (show _ = f :: fs from hrest) hk
      rw [hs] at hdone
      have hstart : opStart { s with hw := hw } .interrupt = some ⟨f.vd,k,f.xferSz == 0⟩ := by
        simp only [opStart,hp]
        rw [hdone]
      exact hm.not_start (step_interrupt_of chip hp) hstart
    | nil =>
      rw [startTransfer_nil (c := vchanCookieComplete d rest s.chan) hrest] at hdone
      have hn := hm.interrupt hp
      have hchan : (State.interrupt { s with hw := hw } x .done ps).chan =
          { vchanCookieComplete d rest s.chan with status := .idle } := by
        change (doneInterrupt s.chan).1 = _
        rw [hdone]
        rfl
      generalize State.interrupt { s with hw := hw } x .done ps = t at hn hchan
      have hq' : t.chan.descIssued ++ t.chan.descSubmitted = e :: es := by
        rw [hchan]
        exact hq
      exact hn.not_idle (by rw [hchan]; exact hreq) (by rw [hchan]) hq' he

theorem none_of_discarded {old : List ℕ} {chip : Chip} {s : State} (ht : Tied s)
    (hwf : s.chan.Wf) (hreq : s.chan.request = .none) (hold : ∀ d ∈ s.chan.queued, d.vd ∈ old)
    (h : Discarded chip old s) :
    (∀ d ∈ s.chan.queued, d.chunk = []) ∨ (s.hw.outstanding = [] ∧ s.chan.Spent) := by
  have hmem : ∀ d, d ∈ s.chan.descIssued ++ s.chan.descSubmitted → d.vd ∈ old := by
    intro d hd
    exact hold d (by simpa [Chan.queued,or_comm] using hd)
  cases hi : s.chan.descIssued with
  | nil =>
    have hidle : s.chan.status = .idle := by
      by_contra hst
      exact ht.issued (Or.inl hst) hi
    cases hs : s.chan.descSubmitted with
    | nil => exact Or.inl (by simp [Chan.queued,hi,hs])
    | cons e es =>
      have hne := (hwf.submitted e (by rw [hs]; exact List.mem_cons_self)).2
      have hq : s.chan.descIssued ++ s.chan.descSubmitted = e :: es := by rw [hi,hs,List.nil_append]
      exact absurd (hmem e (by rw [hq]; exact List.mem_cons_self)) (h.not_idle hreq hidle hq hne)
  | cons d rest =>
    have hq : s.chan.descIssued ++ s.chan.descSubmitted = d :: (rest ++ s.chan.descSubmitted) := by
      rw [hi,List.cons_append]
    by_cases hd : d.chunk = []
    · cases hnext : rest ++ s.chan.descSubmitted with
      | nil =>
        obtain ⟨hr,hs⟩ := List.append_eq_nil_iff.mp hnext
        exact Or.inl (by simp [Chan.queued,hi,hr,hs,hd])
      | cons e es =>
        refine Or.inr ⟨?_,d,rest,hi,hd⟩
        by_contra ho
        have hin : e ∈ rest ++ s.chan.descSubmitted := by rw [hnext]; exact List.mem_cons_self
        have hne : e.chunk ≠ [] := by
          rcases List.mem_append.mp hin with hin | hin
          · exact (hwf.rest hi e hin).2
          · exact (hwf.submitted e hin).2
        exact h.not_next hwf hreq hi hd hnext hne ho
          (hmem e (by rw [hq]; exact List.mem_cons_of_mem d hin))
    · have hin := hmem d (by rw [hq]; exact List.mem_cons_self)
      cases hst : s.chan.status with
      | idle => exact absurd hin (h.not_idle hreq hst hq hd)
      | pause => exact absurd hin (h.not_paused hreq hst hi hd)
      | busy => exact absurd hin (h.not_busy hreq hst hi hd)

/-- When the queue as it stands is never started again; `stopping` and `pausing` say which
request is pending. -/
inductive Settled (stopping pausing : Prop) (s : State) : Prop
  | empty (h : ∀ d ∈ s.chan.queued, d.chunk = [])
  | wedged (ho : s.hw.outstanding = []) (hs : s.chan.Spent)
  | stop (hr : stopping) (hs : s.chan.descSubmitted = []) (hi : s.chan.descIssued.tail = [])
  | abort (hr : pausing) (hp : ∃ x ps, s.hw.pending = (x,.abort) :: ps)
      (hs : s.chan.descSubmitted = []) (hi : s.chan.descIssued.tail = [])
  | done (hr : pausing) (hd : s.chan.Spent) (hp : ∃ x, s.hw.pending = [(x,.done)])
      (hw : s.hw.running = [])

theorem settled_of_discarded {old : List ℕ} {chip : Chip} {s : State} (ht : Tied s)
    (hwf : s.chan.Wf) (hidle : s.chan.request = .pause → s.chan.status = .idle)
    (hold : ∀ d ∈ s.chan.queued, d.vd ∈ old) (h : Discarded chip old s) :
    Settled (s.chan.request = .stop) (s.chan.request = .pause) s := by
  by_cases hreq : s.chan.request = .none
  · rcases none_of_discarded ht hwf hreq hold h with hd | ⟨ho,hs⟩
    · exact .empty hd
    · exact .wedged ho hs
  have hwait := ht.waits (Or.inr hreq)
  obtain ⟨d,rest,hi⟩ := List.exists_cons_of_ne_nil (ht.issued (Or.inr hreq))
  have hlast : rest ++ s.chan.descSubmitted = [] →
      s.chan.descSubmitted = [] ∧ s.chan.descIssued.tail = [] := by
    intro hnil
    obtain ⟨hr,hs⟩ := List.append_eq_nil_iff.mp hnil
    exact ⟨hs,by rw [hi,List.tail_cons,hr]⟩
  have hnext : ∀ e es, rest ++ s.chan.descSubmitted = e :: es → e.chunk ≠ [] ∧ e.vd ∈ old := by
    intro e es hq
    have hin : e ∈ rest ++ s.chan.descSubmitted := by rw [hq]; exact List.mem_cons_self
    rcases List.mem_append.mp hin with hin | hin
    · exact ⟨(hwf.rest hi e hin).2,hold e (by simp [Chan.queued,hi,hin])⟩
    · exact ⟨(hwf.submitted e hin).2,hold e (List.mem_append_left _ hin)⟩
  by_cases ho : s.hw.outstanding = []
  · exact .wedged ho (hwait.resolve_left (fun hn => hn ho))
  cases hr : s.chan.request with
  | none => exact absurd hr hreq
  | stop =>
    cases hq : rest ++ s.chan.descSubmitted with
    | nil => exact .stop rfl (hlast hq).1 (hlast hq).2
    | cons e es =>
      obtain ⟨hne,hin⟩ := hnext e es hq
      cases hp : s.hw.pending with
      | nil =>
        obtain ⟨hw,x,hp,_,hm⟩ := h.raise hp ho .done
        exact absurd hin (hm.not_drop hp hi (.inr hr) hq hne)
      | cons q ps => exact absurd hin (h.not_drop hp hi (.inr hr) hq hne)
  | pause =>
    have hst := hidle hr
    -- handling a done interrupt pauses the channel with the same queue
    have hpaused : ∀ hw x ps, hw.pending = (x,.done) :: ps → Discarded chip old { s with hw := hw } →
        (∀ d ∈ s.chan.queued, d.chunk = []) ∨
          (ps.map Prod.fst ++ hw.running = [] ∧ s.chan.Spent) := by
      intro hw x ps hp hm
      have hdone := doneInterrupt_pause hi hr
      have hm' := hm.interrupt hp
      have ht' : Tied (State.interrupt { s with hw := hw } x .done ps) := by
        simp only [State.interrupt,hdone]
        refine ⟨?_,?_,?_,?_⟩ <;> simp [hi]
      have hnone := @none_of_discarded old chip _ ht'
      simp only [State.interrupt,hdone] at hnone hm'
      have hout : (State.call (State.record { s with hw := { hw with pending := ps } }
          (Event.doneInt x)) ({ s.chan with request := .none, status := .pause },none)).hw.outstanding =
          ps.map Prod.fst ++ hw.running := by simp [Hw.outstanding]
      rw [hout] at hnone
      exact hnone (hwf.of_lists rfl rfl) rfl hold hm'
    cases hp : s.hw.pending with
    | nil =>
      by_cases hd : d.chunk = []
      · cases hq : rest ++ s.chan.descSubmitted with
        | nil =>
          obtain ⟨hr,hs⟩ := List.append_eq_nil_iff.mp hq
          exact .empty (by simp [Chan.queued,hi,hr,hs,hd])
        | cons e es =>
          obtain ⟨hne,hin⟩ := hnext e es hq
          obtain ⟨hw,x,hp,_,hm⟩ := h.raise hp ho .abort
          exact absurd hin (hm.not_drop hp hi (.inl rfl) hq hne)
      · obtain ⟨hw,x,hp,_,hm⟩ := h.raise hp ho .done
        rcases hpaused hw x [] hp hm with hall | ⟨_,e,es,hie,hec⟩
        · exact .empty hall
        · rw [hi] at hie
          obtain ⟨rfl,_⟩ := List.cons.inj hie
          exact absurd hec hd
    | cons q ps =>
      obtain ⟨x,irq⟩ := q
      cases irq with
      | abort =>
        cases hq : rest ++ s.chan.descSubmitted with
        | nil => exact .abort rfl ⟨x,ps,hp⟩ (hlast hq).1 (hlast hq).2
        | cons e es =>
          obtain ⟨hne,hin⟩ := hnext e es hq
          exact absurd hin (h.not_drop hp hi (.inl rfl) hq hne)
      | done =>
        rcases hpaused s.hw x ps hp h with hall | ⟨hnil,hs⟩
        · exact .empty hall
        · obtain ⟨hps,hrun⟩ := List.append_eq_nil_iff.mp hnil
          rw [List.map_eq_nil_iff] at hps
          exact .done rfl hs ⟨x,by rw [hp,hps]⟩ hrun

theorem prepared_not_queued {s : State} (h : s.Distinct) {d : Desc} (hd : d ∈ s.prepared) :
    d.vd ∉ s.chan.queued.map Desc.vd := by
  intro hq
  have hmem : d.vd ∈ s.chan.vds := by
    rw [Chan.vds,List.map_append]
    exact List.mem_append_left _ hq
  exact (List.nodup_append.mp h.nodup).2.2 _ (List.mem_map_of_mem hd) _ hmem rfl

theorem doomed_of_settled {s : State} (h : s.Distinct)
    (hidle : s.chan.request = .pause → s.chan.status = .idle)
    (hs : Settled (s.chan.request = .stop) (s.chan.request = .pause) s) :
    Doomed (s.chan.queued.map Desc.vd) s := by
  have hprep : ∀ ds : List Desc, (∀ d ∈ ds, d.chunk = []) →
      Gone (s.chan.queued.map Desc.vd) (s.prepared ++ ds) := by
    intro ds hds d hd hvd
    rcases List.mem_append.mp hd with hd | hd
    · exact absurd hvd (prepared_not_queued h hd)
    · exact hds d hd
  have hlast : s.chan.descSubmitted = [] → s.chan.descIssued.tail = [] →
      Gone (s.chan.queued.map Desc.vd)
        (s.prepared ++ s.chan.descSubmitted ++ s.chan.descIssued.tail) := by
    intro hsub htail
    rw [hsub,htail,List.append_nil]
    exact hprep [] (fun _ hd => absurd hd List.not_mem_nil)
  cases hs with
  | empty hd => exact .gone (hprep _ hd)
  | wedged ho hs => exact .wedged ho hs
  | stop hr hsub htail => exact .stop hr (hlast hsub htail)
  | abort hr hp hsub htail => exact .abort hr (hidle hr) hp (hlast hsub htail)
  | done hr hs hp hw => exact .done hr (hidle hr) hs hp hw

/-! ## The call -/

/-- The exit of the call that asks the running channel to stop is taken. -/
def Chan.Stops (st : DmaStatus) (c : Chan) : Prop :=
  c.configured = true ∧ c.status = .busy ∧ st ≠ .complete

/-- When a termination discards what is queued: nothing queued has a chunk left; or the
head is spent and nothing is outstanding; or nothing is queued behind the head and a stop
is requested, then or by this call, or an abort is the next interrupt of a channel
with a pause requested; or the pause meets the last done of a spent head. -/
def Discards (st : DmaStatus) (s : State) : Prop :=
  Settled (s.chan.request = .stop ∨ s.chan.Stops st)
    (s.chan.request = .pause ∧ ¬ s.chan.Stops st) s

theorem settled_congr {p q p' q' : Prop} {s t : State} (hp : p ↔ p') (hq : q ↔ q')
    (hw : t.hw = s.hw) (hs : t.chan.descSubmitted = s.chan.descSubmitted)
    (hi : t.chan.descIssued = s.chan.descIssued) (h : Settled p q s) : Settled p' q' t := by
  have hspent : s.chan.Spent → t.chan.Spent := by
    rintro ⟨d,rest,hd,hk⟩
    exact ⟨d,rest,by rw [hi,hd],hk⟩
  cases h with
  | empty h => exact .empty (by simpa only [Chan.queued,hs,hi] using h)
  | wedged ho hd => exact .wedged (by rw [hw,ho]) (hspent hd)
  | stop hr h1 h2 => exact .stop (hp.mp hr) (by rw [hs,h1]) (by rw [hi,h2])
  | abort hr hq' h1 h2 => exact .abort (hq.mp hr) (by rw [hw]; exact hq') (by rw [hs,h1]) (by rw [hi,h2])
  | done hr hd hq' hrun => exact .done (hq.mp hr) (hspent hd) (by rw [hw]; exact hq') (by rw [hw,hrun])

theorem terminateAll_request (st : DmaStatus) (c : Chan) :
    ((c.request = .stop ∨ c.Stops st) ↔ (deviceTerminateAll st c).1.request = .stop) ∧
    ((c.request = .pause ∧ ¬ c.Stops st) ↔ (deviceTerminateAll st c).1.request = .pause) := by
  have hkept : ¬ c.Stops st → (deviceTerminateAll st c).1.request = c.request →
      ((c.request = .stop ∨ c.Stops st) ↔ (deviceTerminateAll st c).1.request = .stop) ∧
      ((c.request = .pause ∧ ¬ c.Stops st) ↔ (deviceTerminateAll st c).1.request = .pause) := by
    intro hno hreq
    rw [hreq]
    exact ⟨or_iff_left hno,and_iff_left hno⟩
  rcases deviceTerminateAll_cases st c with ⟨hc,he⟩ | ⟨_,hst,he⟩ | ⟨_,_,hcomp,he⟩ | ⟨hc,hst,hne,he⟩
  · exact hkept (fun h => absurd h.1 (by simp [hc])) (by rw [he])
  · exact hkept (fun h => hst h.2.1) (by rw [he])
  · exact hkept (fun h => h.2.2 hcomp) (by rw [he])
  · have hstops : c.Stops st := ⟨hc,hst,hne⟩
    rw [he]
    exact ⟨⟨fun _ => rfl,fun _ => .inr hstops⟩,⟨fun h => absurd hstops h.2,fun h => by simp at h⟩⟩

theorem terminateAll_idle {s : State} (h : Tied s) (st : DmaStatus)
    (hreq : (deviceTerminateAll st s.chan).1.request = .pause) :
    (deviceTerminateAll st s.chan).1.status = .idle := by
  rcases deviceTerminateAll_cases st s.chan with ⟨hc,he⟩ | ⟨_,_,he⟩ | ⟨_,_,_,he⟩ | ⟨_,_,_,he⟩ <;>
    rw [he] at hreq ⊢
  · exact h.unconfigured hc (by rw [show s.chan.request = .pause from hreq]; decide)
  · contradiction

/-- From every reachable state the call returns 0, and what was queued at the call is never
started afterwards exactly when the call discards it. -/
theorem terminateAll_discards_iff {chip : Chip} {id : ℕ} {dir : Dir} {llMax : ℕ} {s t : State}
    {ops : List Op} {st : DmaStatus} (hr : Runs (step chip) free (State.init id dir llMax) ops s)
    (he : step chip s (.terminateAll st) = some t) :
    (deviceTerminateAll st s.chan).2 = 0 ∧
      (Discarded chip (s.chan.queued.map Desc.vd) t ↔ Discards st s) := by
  refine ⟨deviceTerminateAll_returns st s.chan,?_⟩
  have hinv : (s.chan.Wf ∧ s.Prepared) ∧ s.Distinct ∧ Tied s := by
    refine hr.invariant (I := fun s => (s.chan.Wf ∧ s.Prepared) ∧ s.Distinct ∧ Tied s) ?_
      ⟨⟨wf_init id dir llMax,by simp [State.Prepared,State.init]⟩,distinct_init id dir llMax,
        tied_init id dir llMax⟩
    rintro s op t ⟨⟨hwf,hp⟩,hd,ht⟩ _ he
    exact ⟨⟨step_wf hwf hp he,step_prepared hp he⟩,step_distinct hd he,step_tied ht he⟩
  obtain ⟨⟨hwf,hp⟩,hd,ht⟩ := hinv
  have hwf' := step_wf hwf hp he
  have hd' := step_distinct hd he
  have ht' := step_tied ht he
  obtain ⟨hstop,hpause⟩ := terminateAll_request st s.chan
  have hidle := terminateAll_idle ht st
  have hlists : (deviceTerminateAll st s.chan).1.descSubmitted = s.chan.descSubmitted ∧
      (deviceTerminateAll st s.chan).1.descIssued = s.chan.descIssued := by
    rcases deviceTerminateAll_cases st s.chan with ⟨_,he⟩ | ⟨_,_,he⟩ | ⟨_,_,_,he⟩ | ⟨_,_,_,he⟩ <;>
      rw [he] <;> exact ⟨rfl,rfl⟩
  have hqueued : t.chan.queued = s.chan.queued := by
    cases he
    simp only [Chan.queued,hlists]
  cases he
  constructor
  · intro h
    have hs := settled_of_discarded ht' hwf' hidle
      (fun d hmem => List.mem_map_of_mem (hqueued ▸ hmem)) h
    exact settled_congr (s := { s with chan := (deviceTerminateAll st s.chan).1 }) (t := s)
      hstop.symm hpause.symm rfl hlists.1.symm hlists.2.symm hs
  · intro h
    have hs := settled_congr (s := s) (t := { s with chan := (deviceTerminateAll st s.chan).1 })
      hstop hpause rfl hlists.1 hlists.2 h
    have hdoomed := doomed_of_settled hd' hidle hs
    rw [hqueued] at hdoomed
    refine hdoomed.discarded ?_
    intro v hv
    refine hd.lt v (List.mem_append_right _ ?_)
    rw [Chan.vds,List.map_append]
    exact List.mem_append_left _ hv

def oneTransfer : List Op := [.config ⟨0,0⟩,.prep fourBytes,.submit 0,.issuePending]

/-- One descriptor at work and nothing behind it: the stop request discards it. -/
theorem oneTransfer_discards : ∃ s t,
    exec (step plainChip) (State.init 0 .write 4) oneTransfer = some s ∧
    step plainChip s (.terminateAll .inProgress) = some t ∧
    Discarded plainChip (s.chan.queued.map Desc.vd) t := by
  refine ⟨_,_,rfl,rfl,?_⟩
  have hr : Runs (step plainChip) free (State.init 0 .write 4) oneTransfer _ :=
    runs_of_exec (guarded_free _ _) rfl
  exact (terminateAll_discards_iff hr rfl).2.mpr (.stop (.inr ⟨rfl,rfl,by decide⟩) rfl rfl)

/-- A stop is pending for the first descriptor when the second one is queued and terminated. -/
def queuedBehindStop : List Op :=
  [.config ⟨0,0⟩,.prep fourBytes,.submit 0,.issuePending,.terminateAll .inProgress,
    .config ⟨0,0⟩,.prep fourBytes,.submit 1,.issuePending]

/-- The third transfer starts the second descriptor after its termination. -/
theorem terminated_is_started : ∃ s t,
    Runs (step plainChip) free (State.init 0 .write 4) queuedBehindStop s ∧
    step plainChip s (.terminateAll .inProgress) = some t ∧
    (deviceTerminateAll .inProgress s.chan).2 = 0 ∧
    ¬ Discarded plainChip (s.chan.queued.map Desc.vd) t := by
  refine ⟨_,_,runs_of_exec (guarded_free _ _) rfl,rfl,rfl,?_⟩
  intro h
  have hstart := h [.finish .done,.interrupt,.config ⟨0,0⟩,.prep fourBytes,.submit 2,.issuePending]
    _ (runs_of_exec (guarded_free _ _) rfl) ⟨1,⟨[⟨0,4096,4⟩],1,true,⟨0,0,4⟩⟩,true⟩ (by decide)
  exact hstart (by decide)

end AkidaEdma.DwEdma
