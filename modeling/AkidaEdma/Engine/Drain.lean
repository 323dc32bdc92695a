import AkidaEdma.Engine.Cookie
import AkidaEdma.Engine.Stall

/-! # The issued descriptors are completed

A busy channel needs two moves of its hardware for each chunk that is not started yet, the end
of the chunk and its interrupt. Without a pause, a termination or an abort no operation of the
driver adds to the moves that stand before a completion, and as long as it is not reached the
hardware has a move to make.
-/
namespace AkidaEdma.DwEdma
open Transition

/-- The moves of the hardware. -/
def Op.hardware : Op → Bool
  | .finish _ => true
  | .interrupt => true
  | _ => false

/-- No operation that holds the channel up. -/
def Unhindered (_ : State) : Op → Prop
  | .pause => False
  | .terminateAll _ => False
  | .finish irq => irq = .done
  | _ => True

/-- The chunks of the first `n` issued descriptors that are not started. -/
def Chan.unstarted (n : ℕ) (c : Chan) : ℕ := ((c.descIssued.take n).flatMap Desc.chunk).length

/-- The moves that the hardware has to make for the chunks that it was given. -/
def Hw.load (hw : Hw) : ℕ := 2 * hw.running.length + hw.pending.length

/-- The moves of the hardware until `n` descriptors are completed. -/
def State.work (n : ℕ) (s : State) : ℕ :=
  if n ≤ s.chan.descCompleted.length then 0
  else 2 * s.chan.unstarted (n - s.chan.descCompleted.length) + s.hw.load

/-- The channel is on its way to the completion of the `n`-th descriptor. -/
structure Working (n : ℕ) (s : State) : Prop where
  live : Live s
  busy : s.chan.status = .busy
  request : s.chan.request = .none
  dones : ∀ p ∈ s.hw.pending, p.2 = .done
  short : s.chan.descCompleted.length < n
  enough : n ≤ s.chan.descCompleted.length + s.chan.descIssued.length

variable {n : ℕ} {s t : State} {chip : Chip}

theorem Working.work_eq (h : Working n s) :
    s.work n = 2 * s.chan.unstarted (n - s.chan.descCompleted.length) + s.hw.load :=
  if_neg (Nat.not_le.mpr h.short)

theorem unstarted_cons {c : Chan} {d : Desc} {rest : List Desc} (hi : c.descIssued = d :: rest)
    (k : ℕ) : c.unstarted (k + 1) =
      d.chunk.length + ((rest.take k).flatMap Desc.chunk).length := by
  rw [Chan.unstarted,hi,List.take_succ_cons,List.flatMap_cons,List.length_append]

/-- A step that leaves the lists and the hardware alone, up to new descriptors behind them. -/
theorem Working.frame (h : Working n s) (hl : Live t) {ds : List Desc}
    (hi : t.chan.descIssued = s.chan.descIssued ++ ds)
    (hc : t.chan.descCompleted = s.chan.descCompleted) (hw : t.hw = s.hw)
    (hst : t.chan.status = s.chan.status) (hreq : t.chan.request = s.chan.request) :
    Working n t ∧ t.work n = s.work n := by
  have henough := h.enough
  have ht : Working n t := by
    refine ⟨hl,hst.trans h.busy,hreq.trans h.request,by rw [hw]; exact h.dones,?_,?_⟩
    · rw [hc]
      exact h.short
    · rw [hc,hi,List.length_append]
      omega
  refine ⟨ht,?_⟩
  have hle : n - s.chan.descCompleted.length ≤ s.chan.descIssued.length := by omega
  rw [ht.work_eq,h.work_eq,hc,hw,Chan.unstarted,Chan.unstarted,hi,List.take_append_of_le_length hle]

/-- The head gives up a chunk to a hardware that had none. -/
theorem working_started {c : Chan} {e : Desc} {es : List Desc} (hl : Live t)
    (hst : t.chan.status = .busy) (hreq : t.chan.request = .none) (hp : t.hw.pending = [])
    (hr : t.hw.running.length = 1) (hi : c.descIssued = e :: es) {k : Chunk} {ks : List Chunk}
    (hk : e.chunk = k :: ks) (hti : t.chan.descIssued = e.consume k ks :: es)
    (htc : t.chan.descCompleted = c.descCompleted) (hshort : c.descCompleted.length < n)
    (henough : n ≤ c.descCompleted.length + c.descIssued.length) :
    Working n t ∧ t.work n = 2 * c.unstarted (n - c.descCompleted.length) := by
  have ht : Working n t := by
    refine ⟨hl,hst,hreq,by simp [hp],by rw [htc]; exact hshort,?_⟩
    rw [htc,hti,List.length_cons]
    rwa [hi,List.length_cons] at henough
  refine ⟨ht,?_⟩
  obtain ⟨m,hm⟩ := Nat.exists_eq_add_of_lt hshort
  have hleft : n - c.descCompleted.length = m + 1 := by omega
  rw [ht.work_eq,htc,hleft,unstarted_cons hi,unstarted_cons hti,consume_chunk,hk,Hw.load,hp,hr,
    List.length_cons,List.length_nil]
  omega

theorem continueTransfer_unspent {c : Chan} {d : Desc} {ds : List Desc} {k : Chunk}
    {ks : List Chunk} (hi : c.descIssued = d :: ds) (hd : d.chunk = k :: ks) (hcount : d.Counted) :
    continueTransfer d ds c = ({ c with descIssued := d.consume k ks :: ds, status := .busy },
      some ⟨d.vd,k,d.xferSz == 0⟩) := by
  have hne : d.chunksAlloc ≠ 0 := by
    intro hz
    rw [hcount.alloc_eq_zero.mp hz] at hd
    contradiction
  simp only [continueTransfer,if_neg hne,startTransfer_cons hi hd,Option.isSome_some,if_true]

theorem continueTransfer_next {c : Chan} {d e : Desc} {es : List Desc} {k : Chunk}
    {ks : List Chunk} (hd : d.chunk = []) (hcount : d.Counted) (hk : e.chunk = k :: ks) :
    continueTransfer d (e :: es) c = ({ vchanCookieComplete d (e :: es) c with
      descIssued := e.consume k ks :: es, status := .busy },some ⟨e.vd,k,e.xferSz == 0⟩) := by
  have hs := startTransfer_cons (c := vchanCookieComplete d (e :: es) c) rfl hk
  simp only [continueTransfer,if_pos (hcount.alloc_eq_zero.mpr hd),hs,Option.isSome_some,if_true]

theorem continueTransfer_completed (c : Chan) {d : Desc} (ds : List Desc) (hd : d.chunk = [])
    (hcount : d.Counted) :
    (continueTransfer d ds c).1.descCompleted = c.descCompleted ++ [d] := by
  simp only [continueTransfer,if_pos (hcount.alloc_eq_zero.mpr hd),startTransfer_completed]
  rfl

/-- A done that finds a chunk of the head unstarted. -/
theorem working_unspent (h : Working n s) {d : Desc} {ds : List Desc}
    (hi : s.chan.descIssued = d :: ds) {k : Chunk} {ks : List Chunk} (hd : d.chunk = k :: ks)
    {r : State} (hr : r.hw = ⟨[],[],s.hw.last⟩)
    (hlive : Live (r.call (continueTransfer d ds s.chan))) :
    Working n (r.call (continueTransfer d ds s.chan)) ∧
      (r.call (continueTransfer d ds s.chan)).work n =
        2 * s.chan.unstarted (n - s.chan.descCompleted.length) := by
  have hcount := h.live.wf.issued d (by rw [hi]; exact List.mem_cons_self)
  rw [continueTransfer_unspent hi hd hcount] at hlive ⊢
  exact working_started hlive rfl h.request (by simp [hr]) (by simp [hr]) hi hd rfl rfl h.short
    h.enough

/-- A done that completes the head, when more descriptors are needed. -/
theorem working_spent (h : Working n s) {d : Desc} {ds : List Desc}
    (hi : s.chan.descIssued = d :: ds) (hd : d.chunk = [])
    (hmore : s.chan.descCompleted.length + 1 < n) {r : State} (hr : r.hw = ⟨[],[],s.hw.last⟩)
    (hlive : Live (r.call (continueTransfer d ds s.chan))) :
    Working n (r.call (continueTransfer d ds s.chan)) ∧
      (r.call (continueTransfer d ds s.chan)).work n =
        2 * s.chan.unstarted (n - s.chan.descCompleted.length) := by
  have hcount := h.live.wf.issued d (by rw [hi]; exact List.mem_cons_self)
  have henough := h.enough
  rw [hi,List.length_cons] at henough
  obtain ⟨e,es,rfl⟩ : ∃ e es, ds = e :: es := by
    refine List.exists_cons_of_ne_nil ?_
    rintro rfl
    rw [List.length_nil] at henough
    omega
  obtain ⟨k,ks,hk⟩ := List.exists_cons_of_ne_nil (h.live.wf.rest hi e List.mem_cons_self).2
  have hcompleted : (vchanCookieComplete d (e :: es) s.chan).descCompleted.length =
      s.chan.descCompleted.length + 1 := by simp [vchanCookieComplete]
  have hissued : (vchanCookieComplete d (e :: es) s.chan).descIssued = e :: es := rfl
  rw [continueTransfer_next hd hcount hk] at hlive ⊢
  obtain ⟨ht,hwork⟩ := working_started (n := n) hlive rfl h.request (by simp [hr])
    (by simp [hr]) hissued hk rfl rfl (by omega) (by rw [hissued]; omega)
  refine ⟨ht,?_⟩
  -- the head had no chunk left
  obtain ⟨m,hm⟩ := Nat.exists_eq_add_of_lt h.short
  have hleft : n - s.chan.descCompleted.length = m + 1 := by omega
  have hleft' : n - (s.chan.descCompleted.length + 1) = m := by omega
  rw [hwork,hcompleted,hleft,hleft',unstarted_cons hi,hd,List.length_nil,Nat.zero_add]
  rfl

/-- The interrupt of the chunk at work: the next chunk is started, or the last descriptor needed
is completed. -/
theorem working_interrupt (h : Working n s) {x : Started} {irq : Irq} {rest : List (Started × Irq)}
    (hp : s.hw.pending = (x,irq) :: rest) :
    (s.interrupt x irq rest).work n = s.work n - 1 ∧
      (Working n (s.interrupt x irq rest) ∨
        n ≤ (s.interrupt x irq rest).chan.descCompleted.length) := by
  have hirq : irq = .done := h.dones (x,irq) (by rw [hp]; exact List.mem_cons_self)
  subst hirq
  obtain ⟨rfl,hrun,d,ds,hi,_⟩ := h.live.pending hp
  have hlive : Live (s.interrupt x .done []) := by
    refine live_interrupt h.live ?_ hp
    rintro y irq ys hy (rfl | hreq)
    · rw [hp] at hy
      cases hy
    · rw [h.request] at hreq
      contradiction
  have hload : s.hw.load = 1 := by
    rw [Hw.load,hp,hrun]
    rfl
  have hr : (State.record { s with hw := { s.hw with pending := [] } } (.doneInt x)).hw =
      ⟨[],[],s.hw.last⟩ := by
    rw [record_hw,← hrun]
  simp only [State.interrupt,doneInterrupt_none hi h.request] at hlive ⊢
  rw [h.work_eq,hload,Nat.add_sub_cancel]
  cases hd : d.chunk with
  | cons k ks =>
    obtain ⟨ht,hwork⟩ := working_unspent h hi hd hr hlive
    exact ⟨hwork,Or.inl ht⟩
  | nil =>
    by_cases hmore : s.chan.descCompleted.length + 1 < n
    · obtain ⟨ht,hwork⟩ := working_spent h hi hd hmore hr hlive
      exact ⟨hwork,Or.inl ht⟩
    · have hcount := h.live.wf.issued d (by rw [hi]; exact List.mem_cons_self)
      have hcompleted := congrArg List.length (continueTransfer_completed s.chan ds hd hcount)
      rw [List.length_append,List.length_singleton] at hcompleted
      have hshort := h.short
      have hreached : n ≤ (continueTransfer d ds s.chan).1.descCompleted.length := by omega
      have hlast : n - s.chan.descCompleted.length = 0 + 1 := by omega
      refine ⟨?_,Or.inr hreached⟩
      rw [hlast,unstarted_cons hi,hd,State.work,call_chan,if_pos hreached]
      rfl

/-! ## The moves of the hardware -/

/-- The completions that are needed are made, or on their way. -/
def Reaching (n : ℕ) (s : State) : Prop :=
  s.Prepared ∧ (Working n s ∨ n ≤ s.chan.descCompleted.length)

theorem Unhindered.sound {op : Op} (h : Working n s) (hg : Unhindered s op) : Sound s op := by
  cases op with
  | issuePending =>
    intro _ _ hidle
    rw [h.busy] at hidle
    contradiction
  | resume =>
    intro _ hpause
    rw [h.busy] at hpause
    contradiction
  | terminateAll st => exact hg.elim
  | interrupt =>
    rintro x irq rest hp (rfl | hreq)
    · have hirq := h.dones _ (by rw [hp]; exact List.mem_cons_self)
      contradiction
    · rw [h.request] at hreq
      contradiction
  | _ => trivial

/-- A move of the hardware brings the completions nearer by one, and no other operation puts them
off. -/
theorem step_reaching {op : Op} (h : Reaching n s) (hg : Unhindered s op)
    (he : step chip s op = some t) :
    Reaching n t ∧ t.work n = s.work n - op.hardware.toNat := by
  obtain ⟨hprep,h | h⟩ := h
  · have hlive := step_live h.live hprep (hg.sound h) he
    have hprep' := step_prepared hprep he
    have hframe : op.hardware = false → (∃ ds, t.chan.descIssued = s.chan.descIssued ++ ds) →
        t.chan.descCompleted = s.chan.descCompleted → t.hw = s.hw →
        t.chan.status = s.chan.status → t.chan.request = s.chan.request →
        Reaching n t ∧ t.work n = s.work n - op.hardware.toNat := by
      rintro hop ⟨ds,hi⟩ hc hw hst hreq
      obtain ⟨ht,hwork⟩ := h.frame hlive hi hc hw hst hreq
      rw [hop]
      exact ⟨⟨hprep',Or.inl ht⟩,hwork⟩
    cases op with
    | config c =>
      cases he
      exact hframe rfl ⟨[],(List.append_nil _).symm⟩ rfl rfl rfl rfl
    | prep x =>
      cases he
      rcases prep_cases chip x s with hr | ⟨_,_,hr⟩ <;> rw [hr] at hframe ⊢ <;>
        exact hframe rfl ⟨[],(List.append_nil _).symm⟩ rfl rfl rfl rfl
    | submit vd =>
      obtain ⟨d,_,_,rfl⟩ := step_submit_some he
      exact hframe rfl ⟨[],(List.append_nil _).symm⟩ rfl rfl rfl rfl
    | issuePending =>
      cases he
      unfold State.issuePending at hlive hprep' hframe ⊢
      rcases deviceIssuePending_cases s.chan with ⟨hc,_⟩ | ⟨hc,_,hr⟩ | ⟨_,_,_,hidle,_⟩
      · rw [if_neg (by simp [hc])] at hframe ⊢
        exact hframe rfl ⟨[],(List.append_nil _).symm⟩ rfl rfl rfl rfl
      · rw [if_pos hc,hr] at hframe ⊢
        exact hframe rfl ⟨s.chan.descSubmitted,rfl⟩ rfl (by simp [State.call]) rfl rfl
      · rw [h.busy] at hidle
        contradiction
    | pause => exact hg.elim
    | resume =>
      cases he
      rcases deviceResume_cases s.chan with hr | ⟨_,hpause,_,_⟩
      · rw [State.resume,hr] at hframe ⊢
        exact hframe rfl ⟨[],(List.append_nil _).symm⟩ rfl (by simp [State.call]) rfl rfl
      · rw [h.busy] at hpause
        contradiction
    | terminateAll st => exact hg.elim
    | finish irq =>
      obtain ⟨x,rest,hr,rfl⟩ := step_finish_some he
      have hirq : irq = .done := hg
      have ht : Working n { s with hw := ⟨rest,s.hw.pending ++ [(x,irq)],some irq⟩ } := by
        refine ⟨hlive,h.busy,h.request,?_,h.short,h.enough⟩
        intro p hp
        rcases List.mem_append.mp hp with hp | hp
        · exact h.dones p hp
        · rw [List.mem_singleton.mp hp]
          exact hirq
      refine ⟨⟨hprep',Or.inl ht⟩,?_⟩
      rw [ht.work_eq,h.work_eq]
      simp only [Hw.load,hr,List.length_append,List.length_cons,List.length_nil,Op.hardware,
        Bool.toNat_true]
      omega
    | interrupt =>
      obtain ⟨x,irq,rest,hp,rfl⟩ := step_interrupt_some he
      obtain ⟨hwork,ht⟩ := working_interrupt h hp
      exact ⟨⟨hprep',ht⟩,hwork⟩
  · -- what is completed stays completed
    have hle := h.trans (step_advances he).2.length_le
    refine ⟨⟨step_prepared hprep he,Or.inr hle⟩,?_⟩
    rw [State.work,if_pos hle,State.work,if_pos h,Nat.zero_sub]

theorem run_reaching {ks : List Op} (h : Reaching n s) (hr : Runs (step chip) Unhindered s ks t) :
    Reaching n t ∧ t.work n = s.work n - ks.countP Op.hardware :=
  hr.countdown (fun _ _ _ h hg he => step_reaching h hg he) h

theorem Reaching.work_zero (h : Reaching n s) :
    s.work n = 0 ↔ n ≤ s.chan.descCompleted.length := by
  refine ⟨fun hz => ?_,fun hle => if_pos hle⟩
  rcases h.2 with hw | hle
  · have hne := hw.live.busy hw.busy
    rw [hw.work_eq,Hw.load] at hz
    refine absurd ?_ hne
    rw [Hw.outstanding,List.append_eq_nil_iff,List.map_eq_nil_iff,← List.length_eq_zero_iff,
      ← List.length_eq_zero_iff]
    omega
  · exact hle

/-- A working channel has a chunk at work or a done to be handled. -/
theorem Working.enabled (h : Working n s) (chip : Chip) : ∃ op u,
    op.hardware = true ∧ Unhindered s op ∧ step chip s op = some u := by
  have hne := h.live.busy h.busy
  cases hp : s.hw.pending with
  | cons p rest => exact ⟨.interrupt,_,rfl,trivial,step_interrupt_of chip hp⟩
  | nil =>
    rw [Hw.outstanding,hp,List.map_nil,List.nil_append] at hne
    obtain ⟨x,rest,hr⟩ := List.exists_cons_of_ne_nil hne
    exact ⟨.finish .done,_,rfl,rfl,step_finish_of chip .done hr⟩

/-- The first completions are those of a line that only grows at its end. -/
theorem completed_iff_length {ops : List Op} (hr : Runs (step chip) Unhindered s ops t) :
    (s.chan.descCompleted ++ s.chan.descIssued).map Desc.vd <+: t.chan.descCompleted.map Desc.vd ↔
      s.chan.descCompleted.length + s.chan.descIssued.length ≤ t.chan.descCompleted.length := by
  have hline : s.chan.line <+: t.chan.line := by
    refine hr.related (R := fun s t => s.chan.line <+: t.chan.line) (fun _ => List.prefix_rfl)
      (fun _ _ _ => List.IsPrefix.trans) ?_
    intro s op t _ he
    rw [(step_advances he).1]
    exact List.prefix_append _ _
  have hs : (s.chan.descCompleted ++ s.chan.descIssued).map Desc.vd <+: t.chan.line :=
    (List.IsPrefix.map Desc.vd (List.prefix_append _ s.chan.descSubmitted)).trans hline
  have ht : t.chan.descCompleted.map Desc.vd <+: t.chan.line := by
    rw [Chan.line,List.append_assoc,List.map_append]
    exact List.prefix_append _ _
  constructor
  · intro h
    simpa using h.length_le
  · intro h
    exact List.prefix_of_prefix_length_le hs ht (by simpa using h)

/-- A busy channel completes what it was issued, in order, with exactly the moves of its hardware
that the chunks need: in every run without a pause, a termination or an abort, whatever else the
driver does meanwhile, and until then the hardware has a move to make. -/
theorem drained {id : ℕ} {dir : Dir} {llMax : ℕ} {ops ks : List Op}
    (hs : Runs (step chip) Sound (State.init id dir llMax) ops s) (hbusy : s.chan.status = .busy)
    (hreq : s.chan.request = .none) (hdone : ∀ p ∈ s.hw.pending, p.2 = .done)
    (hr : Runs (step chip) Unhindered s ks t) :
    ((s.chan.descCompleted ++ s.chan.descIssued).map Desc.vd <+:
        t.chan.descCompleted.map Desc.vd ↔
      2 * (s.chan.descIssued.flatMap Desc.chunk).length + 2 * s.hw.running.length +
        s.hw.pending.length ≤ ks.countP Op.hardware) ∧
    (¬ (s.chan.descCompleted ++ s.chan.descIssued).map Desc.vd <+:
        t.chan.descCompleted.map Desc.vd →
      ∃ op u, op.hardware = true ∧ Unhindered t op ∧ step chip t op = some u) := by
  obtain ⟨hlive,hprep⟩ : Live s ∧ s.Prepared := by
    refine hs.invariant (I := fun s => Live s ∧ s.Prepared) ?_
      ⟨live_init id dir llMax,by simp [State.Prepared,State.init]⟩
    rintro s op t ⟨hl,hp⟩ hg he
    exact ⟨step_live hl hp hg he,step_prepared hp he⟩
  obtain ⟨x,xs,ho⟩ := List.exists_cons_of_ne_nil (hlive.busy hbusy)
  obtain ⟨_,d,ds,hi,_⟩ := hlive.out x xs ho
  have hpos : 0 < s.chan.descIssued.length := by
    rw [hi]
    exact Nat.succ_pos _
  have hstart : Working (s.chan.descCompleted.length + s.chan.descIssued.length) s :=
    ⟨hlive,hbusy,hreq,hdone,by omega,Nat.le_refl _⟩
  obtain ⟨ht,hwork⟩ := run_reaching ⟨hprep,Or.inl hstart⟩ hr
  rw [hstart.work_eq,Nat.add_sub_cancel_left,Chan.unstarted,List.take_length,Hw.load] at hwork
  rw [completed_iff_length hr,← ht.work_zero,hwork]
  refine ⟨by omega,fun hne => ?_⟩
  rw [← hwork,ht.work_zero] at hne
  exact (ht.2.resolve_right hne).enabled chip

/-- Two requests, the second of two chunks. -/
def twoIssued : List Op :=
  [.config ⟨100,0⟩,.prep fourBytes,.submit 0,
    .prep ⟨.devToMem,.scatterGather [⟨4096,4⟩,⟨8192,8⟩] 2⟩,.submit 1]

/-- The hardware works through them while a third one is issued. -/
def issuedMeanwhile : List Op :=
  [.finish .done,.prep fourBytes,.submit 2,.interrupt,.issuePending,.finish .done,.interrupt,
    .config ⟨100,4⟩,.finish .done,.interrupt]

theorem twoIssued_runs :
    (exec (step plainChip) (State.init 0 .write 1) twoIssued).isSome = true := by decide +kernel

/-- The channel before they are issued. -/
def twoSubmitted : State :=
  (exec (step plainChip) (State.init 0 .write 1) twoIssued).get twoIssued_runs

theorem twoSubmitted_sound : Runs (step plainChip) Sound (State.init 0 .write 1)
    (twoIssued ++ [.issuePending]) twoSubmitted.issuePending := by
  have hops : ∀ s, ∀ op ∈ twoIssued, Sound s op := by
    intro s op hop
    simp only [twoIssued,List.mem_cons,List.not_mem_nil,or_false] at hop
    rcases hop with rfl | rfl | rfl | rfl | rfl <;> trivial
  have hr := runs_of_exec (guarded_of_forall hops _) (Option.some_get twoIssued_runs).symm
  refine hr.append (.single ?_ rfl)
  intro _ _ _ d rest hi
  have hne : ∀ e ∈ twoSubmitted.chan.descIssued ++ twoSubmitted.chan.descSubmitted,
      e.chunk ≠ [] := by decide +kernel
  refine Or.inl (hne d ?_)
  rw [twoSubmitted,hi]
  exact List.mem_cons_self

theorem issuedMeanwhile_runs :
    (exec (step plainChip) twoSubmitted.issuePending issuedMeanwhile).isSome = true := by
  decide +kernel

theorem issuedMeanwhile_drained : ∃ t,
    Runs (step plainChip) Unhindered twoSubmitted.issuePending issuedMeanwhile t ∧
    twoSubmitted.issuePending.chan.descIssued.map Desc.vd = [0,1] ∧
    (twoSubmitted.issuePending.chan.descCompleted ++
      twoSubmitted.issuePending.chan.descIssued).map Desc.vd <+:
        t.chan.descCompleted.map Desc.vd := by
  have hops : ∀ s, ∀ op ∈ issuedMeanwhile, Unhindered s op := by
    intro s op hop
    simp only [issuedMeanwhile,List.mem_cons,List.not_mem_nil,or_false] at hop
    rcases hop with rfl | rfl | rfl | rfl | rfl | rfl | rfl | rfl | rfl | rfl <;> trivial
  have hr := runs_of_exec (guarded_of_forall hops _) (Option.some_get issuedMeanwhile_runs).symm
  have hdrained := drained twoSubmitted_sound (by decide +kernel) (by decide +kernel)
    (by decide +kernel) hr
  exact ⟨_,hr,by decide +kernel,hdrained.1.mpr (by decide +kernel)⟩

end AkidaEdma.DwEdma
