import AkidaEdma.Engine.Run

/-! # The queue of a channel

Only the head of `desc_issued` is ever consumed, and chunks leave it from the front.
Everything behind it still has all its chunks, whatever the order of the operations.
-/
namespace AkidaEdma.DwEdma

structure Chan.Wf (c : Chan) : Prop where
  submitted : ∀ d ∈ c.descSubmitted, d.Counted ∧ d.chunk ≠ []
  issued : ∀ d ∈ c.descIssued, d.Counted
  tail : ∀ d ∈ c.descIssued.tail, d.chunk ≠ []

theorem Chan.Wf.of_lists {c c' : Chan} (h : c.Wf) (hs : c'.descSubmitted = c.descSubmitted)
    (hi : c'.descIssued = c.descIssued) : c'.Wf :=
  ⟨by rw [hs]; exact h.submitted,by rw [hi]; exact h.issued,by rw [hi]; exact h.tail⟩

theorem Chan.Wf.rest {c : Chan} (h : c.Wf) {d : Desc} {rest : List Desc}
    (hi : c.descIssued = d :: rest) : ∀ e ∈ rest, e.Counted ∧ e.chunk ≠ [] := by
  intro e he
  have ht := h.tail
  rw [hi] at ht
  exact ⟨h.issued e (by rw [hi]; exact List.mem_cons_of_mem _ he),ht e he⟩

theorem wf_txSubmit {c : Chan} (h : c.Wf) {d : Desc} (hd : d.Fresh) : (txSubmit d c).Wf := by
  refine ⟨?_,h.issued,h.tail⟩
  intro e he
  rcases List.mem_append.mp he with he | he
  · exact h.submitted e he
  · rw [List.mem_singleton.mp he]
    exact ⟨hd.counted,hd.chunk_ne⟩

theorem wf_vchanIssuePending {c : Chan} (h : c.Wf) : (vchanIssuePending c).Wf := by
  refine ⟨by simp [vchanIssuePending],?_,?_⟩
  · intro d hd
    rcases List.mem_append.mp hd with hd | hd
    · exact h.issued d hd
    · exact (h.submitted d hd).1
  · intro d hd
    have ht := h.tail
    cases hi : c.descIssued with
    | nil =>
      simp only [vchanIssuePending,hi,List.nil_append] at hd
      exact (h.submitted d (List.mem_of_mem_tail hd)).2
    | cons e rest =>
      rw [hi] at ht
      simp only [vchanIssuePending,hi,List.cons_append,List.tail_cons,List.mem_append] at hd
      rcases hd with hd | hd
      · exact ht d hd
      · exact (h.submitted d hd).2

theorem wf_vchanCookieComplete {c : Chan} (h : c.Wf) {d : Desc} {rest : List Desc}
    (hi : c.descIssued = d :: rest) : (vchanCookieComplete d rest c).Wf := by
  have hr := h.rest hi
  exact ⟨h.submitted,fun e he => (hr e he).1,fun e he => (hr e (List.mem_of_mem_tail he)).2⟩

theorem wf_startTransfer {c : Chan} (h : c.Wf) : (startTransfer c).1.Wf := by
  rcases startTransfer_cases c with ⟨he,_⟩ | ⟨d,rest,k,ks,hi,hk,he⟩
  · rw [he]; exact h
  · rw [he]
    have hr := h.rest hi
    have hd := h.issued d (by rw [hi]; exact List.mem_cons_self)
    refine ⟨h.submitted,?_,fun e he => (hr e he).2⟩
    intro e he
    rcases List.mem_cons.mp he with rfl | he
    · exact hd.consume hk
    · exact (hr e he).1

theorem wf_deviceTerminateAll {c : Chan} (h : c.Wf) (st : DmaStatus) :
    (deviceTerminateAll st c).1.Wf := by
  rcases deviceTerminateAll_cases st c with ⟨_,he⟩ | ⟨_,_,he⟩ | ⟨_,_,_,he⟩ | ⟨_,_,_,he⟩ <;>
    rw [he] <;> exact h.of_lists rfl rfl

theorem wf_continueTransfer {c : Chan} (h : c.Wf) {d : Desc} {rest : List Desc}
    (hi : c.descIssued = d :: rest) : (continueTransfer d rest c).1.Wf := by
  unfold continueTransfer
  refine Chan.Wf.of_lists (wf_startTransfer ?_) rfl rfl
  split
  · exact wf_vchanCookieComplete h hi
  · exact h

theorem wf_doneInterrupt {c : Chan} (h : c.Wf) : (doneInterrupt c).1.Wf := by
  cases hi : c.descIssued with
  | nil => rw [doneInterrupt_nil hi]; exact h
  | cons d rest =>
    rcases doneInterrupt_cons hi with ⟨_,he⟩ | ⟨_,he⟩ | ⟨_,he⟩ <;> rw [he]
    · exact wf_continueTransfer h hi
    · exact (wf_vchanCookieComplete h hi).of_lists rfl rfl
    · exact h.of_lists rfl rfl

theorem wf_abortInterrupt {c : Chan} (h : c.Wf) : (abortInterrupt c).Wf := by
  cases hi : c.descIssued with
  | nil => rw [abortInterrupt_nil hi]; exact h.of_lists rfl rfl
  | cons d rest =>
    rw [abortInterrupt_cons hi]
    exact (wf_vchanCookieComplete h hi).of_lists rfl rfl

theorem wf_deviceIssuePending {c : Chan} (h : c.Wf) : (deviceIssuePending c).1.Wf := by
  have hs := wf_vchanIssuePending h
  rcases deviceIssuePending_cases c with ⟨_,he⟩ | ⟨_,_,he⟩ | ⟨_,_,_,_,he⟩ <;> rw [he]
  · exact h
  · exact hs
  · exact wf_startTransfer (hs.of_lists rfl rfl)

theorem wf_deviceResume {c : Chan} (h : c.Wf) : (deviceResume c).1.1.Wf := by
  rcases deviceResume_cases c with he | ⟨_,_,_,he⟩ <;> rw [he]
  · exact h
  · exact wf_startTransfer (h.of_lists rfl rfl)

theorem wf_devicePause {c : Chan} (h : c.Wf) : (devicePause c).1.Wf := by
  rcases devicePause_cases c with he | ⟨_,_,_,he⟩ <;> rw [he]
  · exact h
  · exact h.of_lists rfl rfl

theorem wf_init (id : ℕ) (dir : Dir) (llMax : ℕ) : (State.init id dir llMax).chan.Wf := by
  refine ⟨?_,?_,?_⟩ <;> simp [State.init]

/-- What a prep call returned stays as it is until it is submitted. -/
def State.Prepared (s : State) : Prop := ∀ d ∈ s.prepared, d.Fresh

theorem step_prepared {chip : Chip} {s t : State} {op : Op} (h : s.Prepared)
    (he : step chip s op = some t) : t.Prepared := by
  cases op with
  | prep x =>
    cases he
    rcases prep_cases chip x s with he | ⟨d,hd,he⟩ <;> rw [he]
    · exact h
    · intro e hmem
      rcases List.mem_append.mp hmem with hmem | hmem
      · exact h e hmem
      · rw [List.mem_singleton.mp hmem]
        exact (deviceTransfer_fresh hd).1
  | submit vd =>
    obtain ⟨d,_,_,rfl⟩ := step_submit_some he
    exact fun e hmem => h e (List.mem_of_mem_erase hmem)
  | issuePending =>
    cases he
    unfold State.issuePending
    split <;> exact h
  | finish irq => obtain ⟨x,rest,_,rfl⟩ := step_finish_some he; exact h
  | interrupt =>
    obtain ⟨x,irq,rest,_,rfl⟩ := step_interrupt_some he
    cases irq <;> exact h
  | config c => cases he; exact h
  | pause => cases he; exact h
  | resume => cases he; exact h
  | terminateAll st => cases he; exact h

/-- The queue stays well formed under every operation. -/
theorem step_wf {chip : Chip} {s t : State} {op : Op} (h : s.chan.Wf) (hp : s.Prepared)
    (he : step chip s op = some t) : t.chan.Wf := by
  cases op with
  | config c => cases he; exact h.of_lists rfl rfl
  | prep x =>
    cases he
    rcases prep_cases chip x s with he | ⟨d,_,he⟩ <;> rw [he] <;> exact h
  | submit vd =>
    obtain ⟨d,hd,_,rfl⟩ := step_submit_some he
    exact wf_txSubmit h (hp d hd)
  | issuePending =>
    cases he
    unfold State.issuePending
    split
    · exact wf_deviceIssuePending h
    · exact h
  | pause => cases he; exact wf_devicePause h
  | resume => cases he; exact wf_deviceResume h
  | terminateAll st => cases he; exact wf_deviceTerminateAll h st
  | finish irq => obtain ⟨x,rest,_,rfl⟩ := step_finish_some he; exact h
  | interrupt =>
    obtain ⟨x,irq,rest,_,rfl⟩ := step_interrupt_some he
    cases irq with
    | done => exact wf_doneInterrupt h
    | abort => exact wf_abortInterrupt h

/-! ## Descriptors only move

No operation on a channel creates a descriptor, drops one or gives one chunks. -/

def Chan.queued (c : Chan) : List Desc := c.descSubmitted ++ c.descIssued

def Chan.vds (c : Chan) : List ℕ := (c.queued ++ c.descCompleted).map Desc.vd

structure Chan.Moves (c c' : Chan) : Prop where
  vds : c'.vds.Perm c.vds
  origin : ∀ e ∈ c'.queued, ∃ d ∈ c.queued, d.vd = e.vd ∧ (d.chunk = [] → e.chunk = [])

theorem Chan.Moves.of_lists {c c' : Chan} (hs : c'.descSubmitted = c.descSubmitted)
    (hi : c'.descIssued = c.descIssued) (hc : c'.descCompleted = c.descCompleted) :
    c.Moves c' := by
  have hq : c'.queued = c.queued := by simp only [Chan.queued,hs,hi]
  refine ⟨?_,fun e he => ⟨e,by rw [← hq]; exact he,rfl,fun h => h⟩⟩
  simp only [Chan.vds,hq,hc]
  exact List.Perm.refl _

theorem Chan.Moves.refl (c : Chan) : c.Moves c := .of_lists rfl rfl rfl

theorem Chan.Moves.trans {a b c : Chan} (hab : a.Moves b) (hbc : b.Moves c) : a.Moves c := by
  refine ⟨hbc.vds.trans hab.vds,?_⟩
  intro e he
  obtain ⟨d,hd,hde,hdc⟩ := hbc.origin e he
  obtain ⟨f,hf,hfd,hfc⟩ := hab.origin d hd
  exact ⟨f,hf,hfd.trans hde,fun h => hdc (hfc h)⟩

theorem moves_vchanIssuePending (c : Chan) : c.Moves (vchanIssuePending c) := by
  constructor
  · simp only [Chan.vds,Chan.queued,vchanIssuePending,List.nil_append]
    exact (List.perm_append_comm.append_right _).map _
  · intro e he
    refine ⟨e,?_,rfl,id⟩
    simpa [Chan.queued,vchanIssuePending,or_comm] using he

theorem moves_vchanCookieComplete {c : Chan} {d : Desc} {rest : List Desc}
    (hi : c.descIssued = d :: rest) : c.Moves (vchanCookieComplete d rest c) := by
  constructor
  · simp only [Chan.vds,Chan.queued,vchanCookieComplete,hi]
    refine List.Perm.map _ ?_
    simp only [List.append_assoc]
    refine List.Perm.append_left _ ?_
    rw [← List.append_assoc]
    exact List.perm_append_singleton d _
  · intro e he
    refine ⟨e,?_,rfl,id⟩
    simp only [Chan.queued,vchanCookieComplete,List.mem_append] at he
    simp only [Chan.queued,hi,List.mem_append,List.mem_cons]
    tauto

theorem moves_startTransfer (c : Chan) : c.Moves (startTransfer c).1 := by
  rcases startTransfer_cases c with ⟨he,_⟩ | ⟨d,rest,k,ks,hi,hk,he⟩ <;> rw [he]
  · exact .refl c
  · constructor
    · simp [Chan.vds,Chan.queued,hi]
    · intro e hmem
      simp only [Chan.queued,List.mem_append,List.mem_cons] at hmem
      rcases hmem with hmem | rfl | hmem
      · exact ⟨e,by simp [Chan.queued,hmem],rfl,id⟩
      · refine ⟨d,by simp [Chan.queued,hi],rfl,?_⟩
        rw [hk]
        intro h
        exact absurd h (List.cons_ne_nil k ks)
      · exact ⟨e,by simp [Chan.queued,hi,hmem],rfl,id⟩

theorem moves_continueTransfer {c : Chan} {d : Desc} {rest : List Desc}
    (hi : c.descIssued = d :: rest) : c.Moves (continueTransfer d rest c).1 := by
  unfold continueTransfer
  refine Chan.Moves.trans ?_ (Chan.Moves.trans (moves_startTransfer _) (.of_lists rfl rfl rfl))
  split
  · exact moves_vchanCookieComplete hi
  · exact .refl c

theorem moves_doneInterrupt (c : Chan) : c.Moves (doneInterrupt c).1 := by
  cases hi : c.descIssued with
  | nil => rw [doneInterrupt_nil hi]; exact .refl c
  | cons d rest =>
    rcases doneInterrupt_cons hi with ⟨_,he⟩ | ⟨_,he⟩ | ⟨_,he⟩ <;> rw [he]
    · exact moves_continueTransfer hi
    · exact (moves_vchanCookieComplete hi).trans (.of_lists rfl rfl rfl)
    · exact .of_lists rfl rfl rfl

theorem moves_abortInterrupt (c : Chan) : c.Moves (abortInterrupt c) := by
  cases hi : c.descIssued with
  | nil => rw [abortInterrupt_nil hi]; exact .of_lists rfl rfl rfl
  | cons d rest =>
    rw [abortInterrupt_cons hi]
    exact (moves_vchanCookieComplete hi).trans (.of_lists rfl rfl rfl)

theorem moves_deviceIssuePending (c : Chan) : c.Moves (deviceIssuePending c).1 := by
  have hv := moves_vchanIssuePending c
  rcases deviceIssuePending_cases c with ⟨_,he⟩ | ⟨_,_,he⟩ | ⟨_,_,_,_,he⟩ <;> rw [he]
  · exact .refl c
  · exact hv
  · have hb : c.Moves { vchanIssuePending c with status := .busy } :=
      hv.trans (.of_lists rfl rfl rfl)
    exact hb.trans (moves_startTransfer _)

theorem moves_deviceResume (c : Chan) : c.Moves (deviceResume c).1.1 := by
  rcases deviceResume_cases c with he | ⟨_,_,_,he⟩ <;> rw [he]
  · exact .refl c
  · have hb : c.Moves { c with status := .busy } := .of_lists rfl rfl rfl
    exact hb.trans (moves_startTransfer _)

theorem moves_devicePause (c : Chan) : c.Moves (devicePause c).1 := by
  rcases devicePause_cases c with he | ⟨_,_,_,he⟩ <;> rw [he] <;> exact .of_lists rfl rfl rfl

theorem moves_deviceTerminateAll (st : DmaStatus) (c : Chan) :
    c.Moves (deviceTerminateAll st c).1 := by
  rcases deviceTerminateAll_cases st c with ⟨_,he⟩ | ⟨_,_,he⟩ | ⟨_,_,_,he⟩ | ⟨_,_,_,he⟩ <;>
    rw [he] <;> exact .of_lists rfl rfl rfl

/-- An operation other than prep and submit moves the descriptors of the channel. -/
theorem step_moves {chip : Chip} {s t : State} {op : Op} (he : step chip s op = some t) :
    (∃ x, op = .prep x ∧ t = s.prep chip x) ∨
    (∃ d ∈ s.prepared, op = .submit d.vd ∧ t = s.submit d) ∨
    (s.chan.Moves t.chan ∧ t.prepared = s.prepared ∧ t.nextVd = s.nextVd) := by
  cases op with
  | prep x => cases he; exact Or.inl ⟨x,rfl,rfl⟩
  | submit vd =>
    obtain ⟨d,hd,rfl,rfl⟩ := step_submit_some he
    exact Or.inr (Or.inl ⟨d,hd,rfl,rfl⟩)
  | config c => cases he; exact Or.inr (Or.inr ⟨.of_lists rfl rfl rfl,rfl,rfl⟩)
  | issuePending =>
    cases he
    unfold State.issuePending
    split
    · exact Or.inr (Or.inr ⟨moves_deviceIssuePending _,rfl,rfl⟩)
    · exact Or.inr (Or.inr ⟨.refl _,rfl,rfl⟩)
  | pause => cases he; exact Or.inr (Or.inr ⟨moves_devicePause _,rfl,rfl⟩)
  | resume => cases he; exact Or.inr (Or.inr ⟨moves_deviceResume _,rfl,rfl⟩)
  | terminateAll st => cases he; exact Or.inr (Or.inr ⟨moves_deviceTerminateAll st _,rfl,rfl⟩)
  | finish irq =>
    obtain ⟨x,rest,_,rfl⟩ := step_finish_some he
    exact Or.inr (Or.inr ⟨.refl _,rfl,rfl⟩)
  | interrupt =>
    obtain ⟨x,irq,rest,_,rfl⟩ := step_interrupt_some he
    cases irq with
    | done => exact Or.inr (Or.inr ⟨moves_doneInterrupt _,rfl,rfl⟩)
    | abort => exact Or.inr (Or.inr ⟨moves_abortInterrupt _,rfl,rfl⟩)

/-! ## Identities -/

def State.vds (s : State) : List ℕ := s.prepared.map Desc.vd ++ s.chan.vds

/-- The identities of the descriptors are distinct, and the next one is new. -/
structure State.Distinct (s : State) : Prop where
  nodup : s.vds.Nodup
  lt : ∀ v ∈ s.vds, v < s.nextVd

theorem distinct_init (id : ℕ) (dir : Dir) (llMax : ℕ) : (State.init id dir llMax).Distinct :=
  ⟨List.nodup_nil,fun _ h => absurd h List.not_mem_nil⟩

theorem State.Distinct.of_perm {s t : State} (h : s.Distinct) (hp : t.vds.Perm s.vds)
    (hn : t.nextVd = s.nextVd) : t.Distinct := by
  refine ⟨hp.nodup_iff.mpr h.nodup,fun v hv => ?_⟩
  rw [hn]
  exact h.lt v (hp.mem_iff.mp hv)

theorem submit_vds_perm {s : State} {d : Desc} (hd : d ∈ s.prepared) :
    (s.submit d).vds.Perm s.vds := by
  have hp : (d :: s.prepared.erase d).Perm s.prepared := (List.perm_cons_erase hd).symm
  have hall : (s.submit d).vds = ((s.prepared.erase d) ++ ((s.chan.descSubmitted ++ [d]) ++
      s.chan.descIssued ++ s.chan.descCompleted)).map Desc.vd := by
    simp [State.vds,Chan.vds,Chan.queued,State.submit,State.record,txSubmit]
  have hall' : s.vds = (s.prepared ++ (s.chan.descSubmitted ++ s.chan.descIssued ++
      s.chan.descCompleted)).map Desc.vd := by
    simp [State.vds,Chan.vds,Chan.queued]
  rw [hall,hall']
  refine List.Perm.map _ (List.Perm.trans ?_ (hp.append_right _))
  simp only [List.append_assoc,List.cons_append,List.nil_append]
  rw [← List.append_assoc,← List.append_assoc _ s.chan.descSubmitted]
  exact List.perm_middle

theorem step_distinct {chip : Chip} {s t : State} {op : Op} (h : s.Distinct)
    (he : step chip s op = some t) : t.Distinct := by
  rcases step_moves he with ⟨x,_,rfl⟩ | ⟨d,hd,_,rfl⟩ | ⟨hm,hp,hn⟩
  · rcases prep_cases chip x s with he | ⟨d,hd,he⟩ <;> rw [he]
    · exact h
    · have hvd := (deviceTransfer_fresh hd).2
      have hperm : (({ s with prepared := s.prepared ++ [d], nextVd := s.nextVd + 1 } :
          State).record (.prep d)).vds.Perm (s.nextVd :: s.vds) := by
        simp only [State.vds,record_prepared,record_chan,List.map_append,List.map_cons,
          List.map_nil,hvd,List.append_assoc,List.cons_append,List.nil_append]
        exact List.perm_middle
      refine ⟨hperm.nodup_iff.mpr (List.nodup_cons.mpr ⟨?_,h.nodup⟩),?_⟩
      · intro hmem
        exact Nat.lt_irrefl _ (h.lt _ hmem)
      · intro v hv
        change v < s.nextVd + 1
        rcases List.mem_cons.mp (hperm.mem_iff.mp hv) with rfl | hv
        · exact Nat.lt_succ_self _
        · exact Nat.lt_succ_of_lt (h.lt v hv)
  · exact h.of_perm (submit_vds_perm hd) rfl
  · refine h.of_perm ?_ hn
    simp only [State.vds,hp]
    exact hm.vds.append_left _

/-- A chunk is started for a queued descriptor that has one left. -/
theorem startTransfer_start {c : Chan} {x : Started} (h : (startTransfer c).2 = some x) :
    ∃ d rest cs, c.descIssued = d :: rest ∧ d.chunk = x.chunk :: cs ∧ d.vd = x.vd := by
  rcases startTransfer_cases c with ⟨he,_⟩ | ⟨d,rest,k,ks,hi,hk,he⟩ <;> rw [he] at h
  · contradiction
  · cases h
    exact ⟨d,rest,ks,hi,hk,rfl⟩

theorem doneInterrupt_start {c : Chan} {x : Started} (h : (doneInterrupt c).2 = some x) :
    ∃ d ∈ c.queued, d.vd = x.vd ∧ d.chunk ≠ [] := by
  cases hi : c.descIssued with
  | nil =>
    rw [doneInterrupt_nil hi] at h
    contradiction
  | cons e rest =>
    rcases doneInterrupt_cons hi with ⟨_,he⟩ | ⟨_,he⟩ | ⟨_,he⟩ <;> rw [he] at h
    · obtain ⟨d,ds,cs,hd,hk,hvd⟩ := startTransfer_start h
      refine ⟨d,?_,hvd,by rw [hk]; exact List.cons_ne_nil _ cs⟩
      have hmem : d ∈ c.descIssued := by
        split at hd
        · have hdr : d ∈ rest := by
            simp only [vchanCookieComplete] at hd
            rw [hd]
            exact List.mem_cons_self
          rw [hi]
          exact List.mem_cons_of_mem e hdr
        · rw [hd]
          exact List.mem_cons_self
      exact List.mem_append_right _ hmem
    · contradiction
    · contradiction

theorem opStart_origin {s : State} {op : Op} {x : Started} (h : opStart s op = some x) :
    ∃ d ∈ s.chan.queued, d.vd = x.vd ∧ d.chunk ≠ [] := by
  cases op with
  | issuePending =>
    simp only [opStart] at h
    rcases deviceIssuePending_cases s.chan with ⟨_,he⟩ | ⟨_,_,he⟩ | ⟨_,_,_,_,he⟩ <;> rw [he] at h
    · contradiction
    · contradiction
    · obtain ⟨d,rest,cs,hd,hk,hvd⟩ := startTransfer_start h
      refine ⟨d,?_,hvd,by rw [hk]; exact List.cons_ne_nil _ cs⟩
      have hmem : d ∈ s.chan.descIssued ++ s.chan.descSubmitted := by
        have hd' : s.chan.descIssued ++ s.chan.descSubmitted = d :: rest := hd
        rw [hd']
        exact List.mem_cons_self
      simpa [Chan.queued,or_comm] using hmem
  | resume =>
    simp only [opStart] at h
    rcases deviceResume_cases s.chan with he | ⟨_,_,_,he⟩ <;> rw [he] at h
    · contradiction
    · obtain ⟨d,rest,cs,hd,hk,hvd⟩ := startTransfer_start h
      have hd' : s.chan.descIssued = d :: rest := hd
      refine ⟨d,?_,hvd,by rw [hk]; exact List.cons_ne_nil _ cs⟩
      exact List.mem_append_right _ (by rw [hd']; exact List.mem_cons_self)
  | interrupt =>
    simp only [opStart] at h
    split at h
    · exact doneInterrupt_start h
    · contradiction
  | config c => contradiction
  | prep x => contradiction
  | submit vd => contradiction
  | pause => contradiction
  | terminateAll st => contradiction
  | finish irq => contradiction

end AkidaEdma.DwEdma
