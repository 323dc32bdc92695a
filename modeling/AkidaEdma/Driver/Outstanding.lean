import AkidaEdma.Driver.Session
import AkidaEdma.Engine.Solo

/-! # What is outstanding on a channel of the driver

The driver is a client of the engine in the sense of `Client`, so on each of its channels
one chunk is outstanding at a time, and its linked list is not written meanwhile.
-/
namespace AkidaEdma.Driver
open DwEdma Transition

/-- A step of `akida_dma_transfer` is at most one operation of a client on the engine. -/
theorem takes_engine {dev : Device} {way : Way} {x x' : Xfer} {c c' : DmaChan} {ch : Choice}
    (h : x.Takes dev way c ch c' x') : c'.called = c.called ∧ (c'.engine = c.engine ∨
      ∃ op, Client op ∧ DwEdma.step dev.chip c.engine op = some c'.engine) := by
  cases h with
  | map _ => exact ⟨rfl,Or.inl rfl⟩
  | unmapped _ => exact ⟨rfl,Or.inl rfl⟩
  | config _ he => exact ⟨rfl,Or.inr ⟨.config _,trivial,he⟩⟩
  | unprepared _ => exact ⟨rfl,Or.inl rfl⟩
  | prep _ _ he => exact ⟨rfl,Or.inr ⟨.prep _,⟨_,_,_,rfl⟩,he⟩⟩
  | reinit _ => exact ⟨rfl,Or.inl rfl⟩
  | submit _ he => exact ⟨rfl,Or.inr ⟨.submit _,trivial,he⟩⟩
  | issue _ he => exact ⟨rfl,Or.inr ⟨.issuePending,trivial,he⟩⟩
  | completed _ _ => exact ⟨rfl,Or.inl rfl⟩
  | expired _ _ _ => exact ⟨rfl,Or.inl rfl⟩
  | terminate _ he => exact ⟨rfl,Or.inr ⟨.terminateAll _,trivial,he⟩⟩
  | err _ => exact ⟨rfl,Or.inl rfl⟩

/-- So is a move of a session. -/
theorem moves_engine {dev : Device} {way : Way} {s t : Session} {m : Session.Label}
    (h : Session.Moves dev way s m t) : t.chan.engine = s.chan.engine ∨
      ∃ op, Client op ∧ DwEdma.step dev.chip s.chan.engine op = some t.chan.engine := by
  cases h with
  | begin _ _ _ => exact Or.inl rfl
  | run _ ht => exact (takes_engine ht).2
  | leave _ _ => exact Or.inl rfl
  | finish he => exact Or.inr ⟨.finish _,trivial,he⟩
  | interrupt he => exact Or.inr ⟨.interrupt,trivial,he⟩
  | tasklet _ => exact Or.inl rfl

theorem moves_solo {dev : Device} {way : Way} {s t : Session} {m : Session.Label}
    (h : Solo s.chan.engine) (hm : Session.Moves dev way s m t) : Solo t.chan.engine := by
  rcases moves_engine hm with he | ⟨op,hop,he⟩
  · rw [he]
    exact h
  · exact solo_step h hop he

theorem moves_turns {dev : Device} {way : Way} {s t : Session} {m : Session.Label}
    (h : Solo s.chan.engine) (ht : Turns s.chan.engine) (hm : Session.Moves dev way s m t) :
    Turns t.chan.engine := by
  rcases moves_engine hm with he | ⟨op,hop,he⟩
  · rw [he]
    exact ht
  · exact step_turns h ht hop he

/-- On every channel at most one chunk is outstanding; its descriptor is then the head of
`desc_issued` and has no chunk left; and a chunk is handed to the hardware only when the
interrupts of all chunks before it were handled. -/
theorem one_outstanding {dev : Device} {s : State} {ls : List Label}
    (hr : Runs (step dev) free (State.init dev) ls s) (c : ChanId) :
    (s.chans c).engine.hw.outstanding.length ≤ 1 ∧
    (∀ x ∈ (s.chans c).engine.hw.outstanding, ∃ d rest,
      (s.chans c).engine.chan.descIssued = d :: rest ∧ d.vd = x.vd ∧ d.chunk = []) ∧
    starts (s.chans c).engine.log =
      handled (s.chans c).engine.log ++ (s.chans c).engine.hw.outstanding ∧
    ∀ l x r, (s.chans c).engine.log = l ++ .coreStart x :: r → starts l = handled l := by
  obtain ⟨_,_,hsolo,hturns⟩ := runs_sessions
    (I := fun s => Solo s.chan.engine ∧ Turns s.chan.engine)
    (fun c => ⟨solo_init c.2 c.1.dir (dev.room c),turns_init c.2 c.1.dir (dev.llMax c)⟩)
    (fun _ _ _ _ h (_ : True) hm => ⟨moves_solo h.1 hm,moves_turns h.1 h.2 hm⟩)
    (fun _ _ _ _ _ _ _ _ => trivial) hr c
  refine ⟨?_,?_,hturns.starts_eq,fun l x r heq => hturns.always l _ r heq x rfl⟩
  · by_cases ho : (s.chans c).engine.hw.outstanding = []
    · simp [ho]
    · obtain ⟨_,_,_,_,hx,_⟩ := hsolo.head.one ho
      simp [hx]
  · intro x hx
    obtain ⟨d,rest,y,hi,hy,hvd,hd,_⟩ := hsolo.head.one (List.ne_nil_of_mem hx)
    rw [hy] at hx
    rw [List.mem_singleton.mp hx]
    exact ⟨d,rest,hi,hvd,hd⟩

/-- A reader that has started its chunk. -/
theorem reader_outstanding : ∃ s, exec (step plainDevice) (State.init plainDevice)
    (.enter 0 .rx 0 4 true :: List.replicate 8 (.run 0 yes)) = some s ∧
      (s.chans (.rx,0)).engine.hw.outstanding ≠ [] ∧
      (s.chans (.rx,0)).engine.hw.outstanding.length ≤ 1 := by
  have hex : exec (step plainDevice) (State.init plainDevice)
    (.enter 0 .rx 0 4 true :: List.replicate 8 (.run 0 yes)) = some _ := rfl
  have hr := runs_of_exec (guarded_free _ _) hex
  exact ⟨_,hex,by decide,(one_outstanding hr (.rx,0)).1⟩

/-! ## Callbacks to come -/

/-- The submitted descriptors whose callback did not run yet: those in `desc_submitted`, in
`desc_issued`, and completed ones that wait for the tasklet. -/
def DmaChan.waiting (c : DmaChan) : List ℕ := c.engine.chan.line.drop c.called

/-- The tasklet is behind the interrupts. -/
structure Clients (c : DmaChan) : Prop where
  solo : Solo c.engine
  called : c.called ≤ c.engine.chan.descCompleted.length

theorem init_clients (dev : Device) (c : ChanId) : Clients (DmaChan.init dev c) :=
  ⟨solo_init c.2 c.1.dir (dev.room c),Nat.le_refl 0⟩

theorem moves_clients {dev : Device} {way : Way} {s t : Session} {m : Session.Label}
    (h : Clients s.chan) (hm : Session.Moves dev way s m t) : Clients t.chan := by
  refine ⟨moves_solo h.solo hm,?_⟩
  have hcomp : s.chan.engine.chan.descCompleted <+: t.chan.engine.chan.descCompleted := by
    rcases moves_engine hm with he | ⟨op,hop,he⟩
    · exact he.symm ▸ List.prefix_rfl
    · exact (step_line h.solo hop he).2
  have hle := h.called.trans hcomp.length_le
  cases hm with
  | run _ ht => rw [(takes_engine ht).1]; exact hle
  | tasklet hd => exact (List.getElem?_eq_some_iff.mp hd).1
  | _ => exact hle

theorem op_clients {dev : Device} {c : DmaChan} {e : DwEdma.State} {op : Op} (h : Clients c)
    (he : DwEdma.step dev.chip c.engine op = some e) (hop : Client op) :
    Clients { c with engine := e } :=
  ⟨solo_step h.solo hop he,h.called.trans (step_line h.solo hop he).2.length_le⟩

/-- The callbacks to come after an operation on the engine. -/
theorem op_waiting {dev : Device} {c : DmaChan} {e : DwEdma.State} {op : Op} (h : Clients c)
    (he : DwEdma.step dev.chip c.engine op = some e) (hop : Client op) :
    { c with engine := e }.waiting = c.waiting ++ op.submits := by
  have hlen : c.called ≤ c.engine.chan.line.length := by
    have hc := h.called
    simp only [Chan.line,List.length_map,List.length_append]
    omega
  simp only [DmaChan.waiting,(step_line h.solo hop he).1,List.drop_append_of_le_length hlen]

/-- A callback is that of the oldest waiting descriptor. -/
theorem tasklet_waiting {c : DmaChan} {d : Desc}
    (hd : c.engine.chan.descCompleted[c.called]? = some d) :
    c.waiting = d.vd :: { c.callback (c.owner d.vd) with called := c.called + 1 }.waiting := by
  obtain ⟨hlt,_⟩ := List.getElem?_eq_some_iff.mp hd
  have hline : c.engine.chan.line[c.called]? = some d.vd := by
    simp only [Chan.line,List.getElem?_map,List.append_assoc]
    rw [List.getElem?_append_left hlt,hd]
    rfl
  obtain ⟨hlt',hget⟩ := List.getElem?_eq_some_iff.mp hline
  simp only [DmaChan.waiting,List.drop_eq_getElem_cons hlt',hget,DmaChan.callback,
    DmaChan.unmapSingle]

/-- What waits is completed, issued or submitted. -/
theorem waiting_eq {c : DmaChan} (h : Clients c) :
    c.waiting = (c.engine.chan.descCompleted.drop c.called ++ c.engine.chan.descIssued ++
      c.engine.chan.descSubmitted).map Desc.vd := by
  have hle : c.called ≤ (c.engine.chan.descCompleted.map Desc.vd).length := by
    rw [List.length_map]
    exact h.called
  simp only [DmaChan.waiting,Chan.line,List.append_assoc,List.map_append]
  rw [List.drop_append_of_le_length hle,List.map_drop]

/-- When nothing waits, both lists are empty and every callback has run. -/
theorem waiting_nil {c : DmaChan} (h : Clients c) (hw : c.waiting = []) :
    c.engine.chan.descIssued = [] ∧ c.engine.chan.descSubmitted = [] ∧
      c.called = c.engine.chan.descCompleted.length := by
  rw [waiting_eq h,List.map_eq_nil_iff,List.append_eq_nil_iff,List.append_eq_nil_iff] at hw
  obtain ⟨⟨hcomp,hi⟩,hs⟩ := hw
  exact ⟨hi,hs,Nat.le_antisymm h.called (List.drop_eq_nil_iff.mp hcomp)⟩

theorem queued_waiting {c : DmaChan} (h : Clients c) {d : Desc}
    (hd : d ∈ c.engine.chan.queued) : d.vd ∈ c.waiting := by
  rw [waiting_eq h]
  refine List.mem_map_of_mem ?_
  rcases List.mem_append.mp hd with hd | hd
  · exact List.mem_append_right _ hd
  · exact List.mem_append_left _ (List.mem_append_right _ hd)

end AkidaEdma.Driver
