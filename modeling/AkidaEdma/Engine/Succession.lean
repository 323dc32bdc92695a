import AkidaEdma.Engine.Accounting

/-! # The succession of the chunks

A channel starts the chunks of a descriptor one after the other, and no other chunk in between.
Which chunk is started as a first one is told by the bytes that went before it in its descriptor.
-/
namespace AkidaEdma.DwEdma

/-- Chunk `k` of `d` comes next: unless it is the first one of `d`, the one before it was the last
chunk to be started. -/
def Follows (last : Option Started) (d : Desc) (k : ℕ) : Prop :=
  k ≠ 0 → ∃ y, last = some y ∧ d.chunk[k-1]? = some y.chunk

/-- The started chunk `x` is the next one of a descriptor that was prepared with `P`. -/
def Next (P : Desc → Prop) (last : Option Started) (x : Started) : Prop :=
  ∃ d k, P d ∧ d.chunk[k]? = some x.chunk ∧ x.first = (u32 (totalSz (d.chunk.take k)) == 0) ∧
    Follows last d k

/-- Of the descriptors of a channel, all prepared with `P`, only the one at the head of
`desc_issued` has started. -/
structure Succession (P : Desc → Prop) (last : Option Started) (c : Chan) : Prop where
  waiting : ∀ e ∈ c.descSubmitted ++ c.descIssued.tail, P e ∧ e.xferSz = 0
  head : ∀ e ∈ c.descIssued.head?, ∃ d k, P d ∧ d.Rest k e ∧ Follows last d k

/-- What an operation with this result starts and leaves behind. -/
structure Succeeds (P : Desc → Prop) (last : Option Started) (r : Chan × Option Started) :
    Prop where
  next : ∀ x ∈ r.2, Next P last x
  succession : Succession P (r.2.or last) r.1

variable {P : Desc → Prop} {last : Option Started} {c c' : Chan} {d : Desc} {rest : List Desc}

theorem Desc.rest_zero (h : d.xferSz = 0) : d.Rest 0 d := ⟨rfl,rfl,rfl,h⟩

theorem succession_init (id : ℕ) (dir : Dir) (llMax : ℕ) :
    Succession P none (State.init id dir llMax).chan where
  waiting := fun _ he => absurd he List.not_mem_nil
  head := fun _ he => by contradiction

theorem Succession.of_lists (h : Succession P last c) (hs : c'.descSubmitted = c.descSubmitted)
    (hi : c'.descIssued = c.descIssued) : Succession P last c' := by
  constructor
  · rw [hs,hi]
    exact h.waiting
  · rw [hi]
    exact h.head

theorem Succession.kept (h : Succession P last c) : Succeeds P last (c,none) :=
  ⟨fun _ hx => by contradiction,h⟩

theorem Succeeds.of_lists {r : Chan × Option Started} (h : Succeeds P last r)
    (hs : c'.descSubmitted = r.1.descSubmitted) (hi : c'.descIssued = r.1.descIssued) :
    Succeeds P last (c',r.2) := ⟨h.next,h.succession.of_lists hs hi⟩

theorem Succession.submit (h : Succession P last c) (hd : P d ∧ d.xferSz = 0) :
    Succession P last (txSubmit d c) := by
  refine ⟨fun e he => ?_,h.head⟩
  simp only [txSubmit,List.mem_append,List.mem_singleton] at he
  rcases he with (he | rfl) | he
  · exact h.waiting e (List.mem_append_left _ he)
  · exact hd
  · exact h.waiting e (List.mem_append_right _ he)

theorem Succession.issue (h : Succession P last c) : Succession P last (vchanIssuePending c) := by
  have hwaiting := h.waiting
  have hhead := h.head
  unfold vchanIssuePending
  cases hi : c.descIssued with
  | nil =>
    rw [hi] at hwaiting
    refine ⟨fun e he => ?_,fun e he => ?_⟩
    · exact hwaiting e (List.mem_append_left _ (List.mem_of_mem_tail he))
    · have hsub : e ∈ c.descSubmitted := List.mem_of_mem_head? he
      obtain ⟨hP,hzero⟩ := hwaiting e (List.mem_append_left _ hsub)
      exact ⟨e,0,hP,Desc.rest_zero hzero,fun hne => absurd rfl hne⟩
  | cons d rest =>
    rw [hi] at hwaiting hhead
    refine ⟨fun e he => hwaiting e ?_,hhead⟩
    have hmem : e ∈ rest ++ c.descSubmitted := he
    exact List.mem_append.mpr (List.mem_append.mp hmem).symm

/-- The head of `desc_issued` goes; the one behind it has not started. -/
theorem Succession.complete (h : Succession P last c) (hi : c.descIssued = d :: rest) :
    Succession P last (vchanCookieComplete d rest c) := by
  have hwaiting := h.waiting
  rw [hi] at hwaiting
  refine ⟨fun e he => hwaiting e ?_,fun e he => ?_⟩
  · rcases List.mem_append.mp he with he | he
    · exact List.mem_append_left _ he
    · exact List.mem_append_right _ (List.mem_of_mem_tail he)
  · obtain ⟨hP,hzero⟩ := hwaiting e (List.mem_append_right _ (List.mem_of_mem_head? he))
    exact ⟨e,0,hP,Desc.rest_zero hzero,fun hne => absurd rfl hne⟩

/-- A start takes the next chunk of the head. -/
theorem Succession.start (h : Succession P last c) : Succeeds P last (startTransfer c) := by
  rcases startTransfer_cases c with ⟨he,_⟩ | ⟨e,rest,k,ks,hi,hk,_⟩
  · rw [he]
    exact h.kept
  · obtain ⟨d,n,hP,hrest,hfollows⟩ := h.head e (by rw [hi]; rfl)
    have hget : d.chunk[n]? = some k := by
      have hdrop := hrest.chunk
      rw [hk] at hdrop
      have hzero := congrArg List.head? hdrop
      rw [List.head?_drop] at hzero
      exact hzero.symm
    obtain ⟨e',hi',hrest',hstart⟩ := hrest.start hi hget
    constructor
    · intro x hx
      rw [hstart] at hx
      cases hx
      exact ⟨d,n,hP,hget,rfl,hfollows⟩
    · rw [hstart]
      have hwaiting := h.waiting
      rw [hi] at hwaiting
      refine ⟨?_,fun f hf => ?_⟩
      · rw [hi',startTransfer_submitted]
        exact hwaiting
      · rw [hi'] at hf
        cases hf
        exact ⟨d,n+1,hP,hrest',fun _ => ⟨_,rfl,hget⟩⟩

/-! ## The operations -/

theorem Succession.issuePending (h : Succession P last c) :
    Succeeds P last (deviceIssuePending c) := by
  rcases deviceIssuePending_cases c with ⟨_,he⟩ | ⟨_,_,he⟩ | ⟨_,_,_,_,he⟩ <;> rw [he]
  · exact h.kept
  · exact h.issue.kept
  · exact Succession.start (h.issue.of_lists rfl rfl)

theorem Succession.resume (h : Succession P last c) : Succeeds P last (deviceResume c).1 := by
  rcases deviceResume_cases c with he | ⟨_,_,_,he⟩ <;> rw [he]
  · exact h.kept
  · exact Succession.start (h.of_lists rfl rfl)

theorem Succession.doneInterrupt (h : Succession P last c) :
    Succeeds P last (doneInterrupt c) := by
  cases hi : c.descIssued with
  | nil =>
    rw [doneInterrupt_nil hi]
    exact h.kept
  | cons d rest =>
    rcases doneInterrupt_cons hi with ⟨_,he⟩ | ⟨_,he⟩ | ⟨_,he⟩ <;> rw [he]
    · unfold continueTransfer
      split
      · exact (h.complete hi).start.of_lists rfl rfl
      · exact h.start.of_lists rfl rfl
    · exact Succession.kept ((h.complete hi).of_lists rfl rfl)
    · exact Succession.kept (h.of_lists rfl rfl)

theorem Succession.abortInterrupt (h : Succession P last c) :
    Succession P last (abortInterrupt c) := by
  cases hi : c.descIssued with
  | nil =>
    rw [abortInterrupt_nil hi]
    exact h.of_lists rfl rfl
  | cons d rest =>
    rw [abortInterrupt_cons hi]
    exact (h.complete hi).of_lists rfl rfl

theorem devicePause_lists (c : Chan) : (devicePause c).1.descSubmitted = c.descSubmitted ∧
    (devicePause c).1.descIssued = c.descIssued := by
  rcases devicePause_cases c with he | ⟨_,_,_,he⟩ <;> rw [he] <;> exact ⟨rfl,rfl⟩

theorem deviceTerminateAll_lists (st : DmaStatus) (c : Chan) :
    (deviceTerminateAll st c).1.descSubmitted = c.descSubmitted ∧
      (deviceTerminateAll st c).1.descIssued = c.descIssued := by
  rcases deviceTerminateAll_cases st c with ⟨_,he⟩ | ⟨_,_,he⟩ | ⟨_,_,_,he⟩ | ⟨_,_,_,he⟩ <;>
    rw [he] <;> exact ⟨rfl,rfl⟩

/-- Every operation starts the next chunk or none, if what was prepared has `P`. -/
theorem step_succeeds {chip : Chip} {s t : State} {op : Op} (h : Succession P last s.chan)
    (hp : ∀ d ∈ s.prepared, P d ∧ d.xferSz = 0) (he : step chip s op = some t) :
    Succeeds P last (t.chan,opStart s op) := by
  cases op with
  | config cf =>
    cases he
    exact Succession.kept (h.of_lists rfl rfl)
  | prep x =>
    cases he
    rcases prep_cases chip x s with he | ⟨d,_,he⟩ <;> rw [he] <;> exact h.kept
  | submit vd =>
    obtain ⟨d,hd,_,rfl⟩ := step_submit_some he
    exact (h.submit (hp d hd)).kept
  | issuePending =>
    cases he
    unfold State.issuePending
    split
    · exact h.issuePending
    · rename_i hc
      have hnone : deviceIssuePending s.chan = (s.chan,none) := by simp [deviceIssuePending,hc]
      rw [opStart,hnone]
      exact h.kept
  | pause =>
    cases he
    obtain ⟨hs,hi⟩ := devicePause_lists s.chan
    exact Succession.kept (h.of_lists hs hi)
  | resume =>
    cases he
    exact h.resume
  | terminateAll st =>
    cases he
    obtain ⟨hs,hi⟩ := deviceTerminateAll_lists st s.chan
    exact Succession.kept (h.of_lists hs hi)
  | finish irq =>
    obtain ⟨x,rest,_,rfl⟩ := step_finish_some he
    exact h.kept
  | interrupt =>
    obtain ⟨x,irq,rest,hpending,rfl⟩ := step_interrupt_some he
    simp only [opStart,hpending]
    cases irq with
    | done => exact h.doneInterrupt
    | abort => exact h.abortInterrupt.kept

theorem Succeeds.step {chip : Chip} {s t : State} {op : Op}
    (h : Succeeds P s.starts.getLast? (t.chan,opStart s op)) (he : step chip s op = some t) :
    Succession P t.starts.getLast? t.chan := by
  have hlast : t.starts.getLast? = (opStart s op).or s.starts.getLast? := by
    rw [step_starts he,List.getLast?_append]
    cases opStart s op <;> rfl
  rw [hlast]
  exact h.succession

/-- The first start of all is that of a first chunk. -/
theorem Next.first {x : Started} (h : Next P none x) : x.first = true := by
  obtain ⟨d,k,_,_,hfirst,hfollows⟩ := h
  have hk : k = 0 := by
    by_contra hne
    obtain ⟨y,hy,_⟩ := hfollows hne
    contradiction
  rw [hfirst,hk]
  rfl

end AkidaEdma.DwEdma
