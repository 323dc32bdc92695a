import AkidaEdma.Driver.Completion

/-! # Who unmaps a buffer

`dma_unmap_single` is called at two places, the callback and the error path, and both take
the address from the channel. While no wait expires, the mappings of a channel are unmapped
one after the other in the order in which they were made. When the first one expires, the
descriptor is still on the channel or its callback is still to come.
-/
namespace AkidaEdma.Driver
open DwEdma Transition

/-- What the driver owes to the mappings of a channel. -/
structure State.Kept (s : State) (c : ChanId) : Prop where
  /-- An unmapping is applied to the mapping it is meant for. -/
  own : ∀ u ∈ (s.chans c).unmaps, u.applied = u.owner
  /-- A mapping is unmapped once, and not before its transfer is over or its callback runs. -/
  once : ∀ m, 1 ≤ m → m ≤ (s.chans c).mapped →
    ((s.chans c).unmaps.map Unmap.applied).count m = 1 ∨
    (((s.chans c).unmaps.map Unmap.applied).count m = 0 ∧
      ∃ k x, s.At k c x ∧ x.mapping = m ∧ ∀ ret, x.stage ≠ .returned ret)
  /-- No descriptor of an unmapped buffer is at work, or could be started. -/
  unused : ∀ u ∈ (s.chans c).unmaps,
    (∀ x ∈ (s.chans c).engine.hw.outstanding, (s.chans c).owner x.vd ≠ u.applied) ∧
    ∀ d ∈ (s.chans c).engine.chan.queued, (s.chans c).owner d.vd ≠ u.applied

/-- No wait expires. -/
def Patient (s : State) : Label → Prop
  | .run k ch => ∀ c x, s.At k c x → x.stage = .wait → ch.ok = true
  | _ => True

def Session.Patient (s : Session) : Session.Label → Prop
  | .run ch => ∀ x, s.xfer = some x → x.stage = .wait → ch.ok = true
  | _ => True

/-- The first `n` mappings, each unmapped as it should be. -/
def inTurn (n : ℕ) : List Unmap := (List.range n).map fun i => ⟨i+1,i+1⟩

theorem inTurn_succ (n : ℕ) : inTurn (n+1) = inTurn n ++ [⟨n+1,n+1⟩] := by
  simp [inTurn,List.range_succ]

theorem mem_inTurn {n : ℕ} {u : Unmap} (h : u ∈ inTurn n) :
    u.applied = u.owner ∧ 1 ≤ u.applied ∧ u.applied ≤ n := by
  obtain ⟨i,hi,rfl⟩ := List.mem_map.mp h
  have hlt := List.mem_range.mp hi
  exact ⟨rfl,by simp,hlt⟩

theorem count_inTurn (n m : ℕ) :
    ((inTurn n).map Unmap.applied).count m = if 1 ≤ m ∧ m ≤ n then 1 else 0 := by
  have hmap : (inTurn n).map Unmap.applied = List.range' 1 n := by
    rw [inTurn,List.map_map,List.range'_eq_map_range]
    refine List.map_congr_left ?_
    intro i _
    exact Nat.add_comm i 1
  rw [hmap,List.count_range_1']
  simp only [Nat.lt_one_add_iff]

/-- All mappings are unmapped, and no descriptor is left. -/
structure Free (c : DmaChan) : Prop where
  waiting : c.waiting = []
  unmaps : c.unmaps = inTurn c.mapped

/-- The channel has the one mapping that is not unmapped. -/
structure Mapped (m : ℕ) (c : DmaChan) : Prop where
  mapped : c.mapped = m
  mapping : c.mapping = m
  pos : 1 ≤ m
  unmaps : c.unmaps = inTurn (m-1)

/-- The call has its descriptor on the channel, or its callback ran. -/
def Owed (m vd : ℕ) (c : DmaChan) : Prop :=
  (Mapped m c ∧ c.waiting = [vd] ∧ c.owner vd = m ∧ c.dmaComplete = 0) ∨
  (Free c ∧ c.dmaComplete ≠ 0)

/-- The invariant, by the stage of the call: `m` is its mapping and `vd` its descriptor. -/
def Stage.Maps (m vd : ℕ) (c : DmaChan) : Stage → Prop
  | .map => Free c
  | .returned _ => Free c
  | .config => Mapped m c ∧ c.waiting = []
  | .prep => Mapped m c ∧ c.waiting = []
  | .err _ => Mapped m c ∧ c.waiting = []
  | .reinit => Mapped m c ∧ c.waiting = [] ∧ c.owner vd = m
  | .submit => Mapped m c ∧ c.waiting = [] ∧ c.owner vd = m ∧ c.dmaComplete = 0
  | .issue => Owed m vd c
  | .wait => Owed m vd c
  | .terminate => False

structure Accounted (s : Session) : Prop where
  clients : Clients s.chan
  stage : ∀ x, s.xfer = some x → x.stage.Maps x.mapping x.txdesc s.chan
  free : s.xfer = none → Free s.chan

theorem mapped_unmap {c : DmaChan} {m : ℕ} (h : Mapped m c) : c.unmaps ++ [⟨m,m⟩] = inTurn c.mapped := by
  obtain ⟨n,rfl⟩ := Nat.exists_eq_add_of_le' h.pos
  rw [h.unmaps,h.mapped,Nat.add_sub_cancel,inTurn_succ]

theorem complete_ne_zero (done : ℕ) : complete done ≠ 0 := by
  unfold complete
  split <;> omega

theorem maps_op {dev : Device} {c : DmaChan} {e : DwEdma.State} {op : Op} {m vd : ℕ} {st : Stage}
    (h : Clients c) (he : DwEdma.step dev.chip c.engine op = some e) (hc : Client op)
    (hop : op.submits = []) (hm : st.Maps m vd c) : st.Maps m vd { c with engine := e } := by
  have hw : { c with engine := e }.waiting = c.waiting := by
    rw [op_waiting h he hc,hop,List.append_nil]
  have hfree : Free c → Free { c with engine := e } := fun hf => ⟨hw.trans hf.waiting,hf.unmaps⟩
  have hmap : Mapped m c → Mapped m { c with engine := e } :=
    fun hf => ⟨hf.mapped,hf.mapping,hf.pos,hf.unmaps⟩
  have howed : Owed m vd c → Owed m vd { c with engine := e } := by
    rintro (⟨h1,h2,h3,h4⟩ | ⟨h1,h2⟩)
    · exact Or.inl ⟨hmap h1,hw.trans h2,h3,h4⟩
    · exact Or.inr ⟨hfree h1,h2⟩
  cases st with
  | map => exact hfree hm
  | returned _ => exact hfree hm
  | config => exact ⟨hmap hm.1,hw.trans hm.2⟩
  | prep => exact ⟨hmap hm.1,hw.trans hm.2⟩
  | err _ => exact ⟨hmap hm.1,hw.trans hm.2⟩
  | reinit => exact ⟨hmap hm.1,hw.trans hm.2.1,hm.2.2⟩
  | submit => exact ⟨hmap hm.1,hw.trans hm.2.1,hm.2.2⟩
  | issue => exact howed hm
  | wait => exact howed hm
  | terminate => exact hm

/-- A callback runs only for the descriptor of the call, and unmaps its mapping. -/
theorem maps_tasklet {c : DmaChan} {d : Desc} {m vd : ℕ} {st : Stage}
    (hd : c.engine.chan.descCompleted[c.called]? = some d) (hm : st.Maps m vd c) :
    st.Maps m vd { c.callback (c.owner d.vd) with called := c.called + 1 } := by
  have hw := tasklet_waiting hd
  have hnot : c.waiting ≠ [] := by
    rw [hw]
    exact List.cons_ne_nil _ _
  have howed : Owed m vd c → Owed m vd { c.callback (c.owner d.vd) with called := c.called + 1 } := by
    rintro (⟨h1,h2,h3,_⟩ | ⟨h1,_⟩)
    · obtain ⟨hvd,hnil⟩ := List.cons.inj (hw.symm.trans h2)
      refine Or.inr ⟨⟨hnil,?_⟩,complete_ne_zero _⟩
      rw [hvd,h3]
      have happ := mapped_unmap h1
      simp only [DmaChan.callback,DmaChan.unmapSingle,h1.mapping]
      exact happ
    · exact absurd h1.waiting hnot
  cases st with
  | map => exact absurd hm.waiting hnot
  | returned _ => exact absurd hm.waiting hnot
  | config => exact absurd hm.2 hnot
  | prep => exact absurd hm.2 hnot
  | err _ => exact absurd hm.2 hnot
  | reinit => exact absurd hm.2.1 hnot
  | submit => exact absurd hm.2.1 hnot
  | issue => exact howed hm
  | wait => exact howed hm
  | terminate => exact hm

theorem takes_maps {dev : Device} {way : Way} {x x' : Xfer} {c c' : DmaChan} {ch : Choice}
    (h : Clients c) (hm : x.stage.Maps x.mapping x.txdesc c)
    (hpat : x.stage = .wait → ch.ok = true) (ht : x.Takes dev way c ch c' x') :
    x'.stage.Maps x'.mapping x'.txdesc c' := by
  cases ht with
  | map hs =>
    rw [hs] at hm
    exact ⟨⟨rfl,rfl,Nat.le_add_left 1 _,hm.unmaps⟩,hm.waiting⟩
  | unmapped hs =>
    rw [hs] at hm
    exact ⟨hm.waiting,hm.unmaps⟩
  | config hs he =>
    have hk := maps_op h he trivial rfl hm
    rw [hs] at hk
    exact hk
  | unprepared hs =>
    rw [hs] at hm
    exact hm
  | @prep d e hs hd he =>
    have hk := maps_op h he ⟨_,_,_,rfl⟩ rfl hm
    rw [hs] at hk
    obtain ⟨hmap,hw⟩ := hk
    refine ⟨⟨hmap.mapped,hmap.mapping,hmap.pos,hmap.unmaps⟩,hw,?_⟩
    have howner : Function.update c.owner d.vd c.mapping d.vd = c.mapping := Function.update_self ..
    exact howner.trans hmap.mapping
  | reinit hs =>
    rw [hs] at hm
    obtain ⟨hmap,hw,ho⟩ := hm
    exact ⟨⟨hmap.mapped,hmap.mapping,hmap.pos,hmap.unmaps⟩,hw,ho,rfl⟩
  | submit hs he =>
    rw [hs] at hm
    obtain ⟨hmap,hw,ho,hz⟩ := hm
    have hw' := op_waiting h he trivial
    rw [hw] at hw'
    exact Or.inl ⟨⟨hmap.mapped,hmap.mapping,hmap.pos,hmap.unmaps⟩,hw',ho,hz⟩
  | issue hs he =>
    have hk := maps_op h he trivial rfl hm
    rw [hs] at hk
    exact hk
  | completed hs hc =>
    rw [hs] at hm
    rcases hm with ⟨_,_,_,hz⟩ | ⟨hf,_⟩
    · exact absurd hz hc
    · exact ⟨hf.waiting,hf.unmaps⟩
  | expired hs hok _ =>
    rw [hpat hs] at hok
    contradiction
  | terminate hs _ =>
    rw [hs] at hm
    exact hm.elim
  | err hs =>
    rw [hs] at hm
    obtain ⟨hmap,hw⟩ := hm
    refine ⟨hw,?_⟩
    have happ := mapped_unmap hmap
    simp only [DmaChan.unmapSingle,hmap.mapping]
    exact happ

theorem moves_accounted {dev : Device} {way : Way} {s t : Session} {m : Session.Label}
    (h : Accounted s) (hp : s.Patient m) (hm : Session.Moves dev way s m t) : Accounted t := by
  refine ⟨moves_clients h.clients hm,?_,?_⟩
  · cases hm with
    | begin a n hn =>
      rintro x ⟨⟩
      exact h.free hn
    | run hs ht =>
      rintro y ⟨⟩
      exact takes_maps h.clients (h.stage _ hs) (hp _ hs) ht
    | leave _ _ => exact fun y hy => by contradiction
    | finish he => exact fun x hx => maps_op h.clients he trivial rfl (h.stage x hx)
    | interrupt he => exact fun x hx => maps_op h.clients he trivial rfl (h.stage x hx)
    | tasklet hd => exact fun x hx => maps_tasklet hd (h.stage x hx)
  · cases hm with
    | begin _ _ _ => intro hn; contradiction
    | run _ _ => intro hn; contradiction
    | leave hs hst =>
      intro _
      have hm := h.stage _ hs
      rw [hst] at hm
      exact hm
    | finish he =>
      intro hn
      have hf : Stage.Maps 0 0 s.chan .map := h.free hn
      exact maps_op h.clients he trivial rfl hf
    | interrupt he =>
      intro hn
      have hf : Stage.Maps 0 0 s.chan .map := h.free hn
      exact maps_op h.clients he trivial rfl hf
    | tasklet hd =>
      intro hn
      have hf : Stage.Maps 0 0 s.chan .map := h.free hn
      exact maps_tasklet hd hf

/-- Either everything is unmapped and nothing waits, or the call on the channel has the last
mapping, and what waits is its descriptor. -/
theorem accounted_cases {s : Session} (h : Accounted s) :
    Free s.chan ∨ ∃ x, s.xfer = some x ∧ (∀ ret, x.stage ≠ .returned ret) ∧
      Mapped x.mapping s.chan ∧ ∀ vd ∈ s.chan.waiting, s.chan.owner vd = x.mapping := by
  cases hx : s.xfer with
  | none => exact Or.inl (h.free hx)
  | some x =>
    have hm := h.stage x hx
    have hnil : s.chan.waiting = [] → ∀ vd ∈ s.chan.waiting, s.chan.owner vd = x.mapping := by
      intro hw vd hvd
      rw [hw] at hvd
      exact absurd hvd List.not_mem_nil
    have howed : (∀ ret, x.stage ≠ .returned ret) → Owed x.mapping x.txdesc s.chan →
        Free s.chan ∨ ∃ y, some x = some y ∧ (∀ ret, y.stage ≠ .returned ret) ∧
          Mapped y.mapping s.chan ∧ ∀ vd ∈ s.chan.waiting, s.chan.owner vd = y.mapping := by
      rintro hst (⟨h1,h2,h3,_⟩ | ⟨h1,_⟩)
      · refine Or.inr ⟨x,rfl,hst,h1,?_⟩
        intro vd hvd
        rw [h2] at hvd
        rw [List.mem_singleton.mp hvd]
        exact h3
      · exact Or.inl h1
    cases hst : x.stage <;> rw [hst] at hm
    case map => exact Or.inl hm
    case returned ret => exact Or.inl hm
    case config => exact Or.inr ⟨x,rfl,by simp [hst],hm.1,hnil hm.2⟩
    case prep => exact Or.inr ⟨x,rfl,by simp [hst],hm.1,hnil hm.2⟩
    case err ret => exact Or.inr ⟨x,rfl,by simp [hst],hm.1,hnil hm.2⟩
    case reinit => exact Or.inr ⟨x,rfl,by simp [hst],hm.1,hnil hm.2.1⟩
    case submit => exact Or.inr ⟨x,rfl,by simp [hst],hm.1,hnil hm.2.1⟩
    case issue => exact howed (by simp [hst]) hm
    case wait => exact howed (by simp [hst]) hm
    case terminate => exact hm.elim

theorem outstanding_queued {c : DmaChan} (h : Clients c) {x : Started}
    (hx : x ∈ c.engine.hw.outstanding) : ∃ d ∈ c.engine.chan.queued, d.vd = x.vd := by
  obtain ⟨d,rest,y,hi,hy,hvd,_,_⟩ := h.solo.head.one (List.ne_nil_of_mem hx)
  rw [hy] at hx
  rw [List.mem_singleton.mp hx]
  exact ⟨d,List.mem_append_right _ (by rw [hi]; exact List.mem_cons_self),hvd⟩

theorem kept_of_accounted {s : State} {c : ChanId} {o : Option Xfer} (ho : s.Running c o)
    (h : Accounted ⟨s.chans c,o⟩) : s.Kept c := by
  have hunused : ∀ m, (∀ vd ∈ (s.chans c).waiting, (s.chans c).owner vd ≠ m) →
      (∀ x ∈ (s.chans c).engine.hw.outstanding, (s.chans c).owner x.vd ≠ m) ∧
      ∀ d ∈ (s.chans c).engine.chan.queued, (s.chans c).owner d.vd ≠ m := by
    intro m hw
    refine ⟨?_,fun d hd => hw _ (queued_waiting h.clients hd)⟩
    intro x hx
    obtain ⟨d,hd,hvd⟩ := outstanding_queued h.clients hx
    rw [← hvd]
    exact hw _ (queued_waiting h.clients hd)
  rcases accounted_cases h with hf | ⟨x,hx,hst,hm,hw⟩
  · refine ⟨?_,?_,?_⟩
    · intro u hu
      rw [hf.unmaps] at hu
      exact (mem_inTurn hu).1
    · intro m h1 hle
      left
      rw [hf.unmaps,count_inTurn,if_pos ⟨h1,hle⟩]
    · intro u _
      refine hunused _ ?_
      intro vd hvd
      rw [hf.waiting] at hvd
      exact absurd hvd List.not_mem_nil
  · obtain ⟨k,hk⟩ := (ho x).mp hx
    have hpos := hm.pos
    have hmapped : (s.chans c).mapped = x.mapping := hm.mapped
    refine ⟨?_,?_,?_⟩
    · intro u hu
      rw [hm.unmaps] at hu
      exact (mem_inTurn hu).1
    · intro m h1 hle
      rw [hm.unmaps,count_inTurn]
      by_cases hlast : m = x.mapping
      · right
        rw [if_neg (by omega)]
        exact ⟨rfl,k,x,hk,hlast.symm,hst⟩
      · left
        exact if_pos ⟨h1,by omega⟩
    · intro u hu
      rw [hm.unmaps] at hu
      obtain ⟨_,_,hle⟩ := mem_inTurn hu
      refine hunused _ ?_
      intro vd hvd
      rw [hw vd hvd]
      omega

theorem runs_accounted {dev : Device} {s : State} {ls : List Label}
    (hr : Runs (step dev) Patient (State.init dev) ls s) (c : ChanId) :
    ∃ o, s.Running c o ∧ Accounted ⟨s.chans c,o⟩ := by
  refine runs_sessions (fun c => ⟨init_clients dev c,fun x hx => by contradiction,
    fun _ => ⟨rfl,rfl⟩⟩) (fun _ _ _ _ h hp hm => moves_accounted h hp hm) ?_ hr c
  intro s l c o m hg ho hon
  cases m with
  | run ch =>
    obtain ⟨k,x,rfl,hx⟩ := hon
    intro y hy hst
    cases hy.symm.trans (running_at ho hx)
    exact hg c x hx hst
  | _ => trivial

/-! ## A wait that expires -/

/-- A step of a transfer is a step of the driver. -/
theorem step_transfer {dev : Device} {s : State} {k : ℕ} {c : ChanId} {x x' : Xfer} {d : DmaChan}
    {ch : Choice} (h : s.At k c x) (hs : ∀ ret, x.stage ≠ .returned ret)
    (he : x.step dev c.1 (s.chans c) ch = some (d,x')) :
    ∃ t, step dev s (.run k ch) = some t ∧ t.At k c x' ∧ t.chans c = d := by
  obtain ⟨a,ha,hp⟩ := h
  refine ⟨{ s with chans := Function.update s.chans c d }.setCall k
    { a with phase := .transfer c x' },?_,⟨_,Function.update_self ..,rfl⟩,Function.update_self ..⟩
  simp only [step,State.run,ha,hp,he]
  rfl

/-- A call whose wait expired terminates the channel and unmaps its buffer. -/
theorem expired_unmaps {dev : Device} {t : State} {k : ℕ} {c : ChanId} {x : Xfer}
    (h : t.At k c x) (hs : x.stage = .terminate) : ∃ u e, Reaches (step dev) free t u ∧
      DwEdma.step dev.chip (t.chans c).engine (.terminateAll .inProgress) = some e ∧
      u.chans c = { t.chans c with engine := e }.unmapSingle x.mapping := by
  have hx : ∀ ret, x.stage ≠ .returned ret := by simp [hs]
  have hterm : x.step dev c.1 (t.chans c) ⟨false,false,0,.inProgress⟩ = some
      ({ t.chans c with engine := { (t.chans c).engine with
        chan := (deviceTerminateAll .inProgress (t.chans c).engine.chan).1 } },
        { x with stage := .err (-ETIMEDOUT) }) := by
    simp only [Xfer.step,hs]
    rfl
  obtain ⟨t',hstep,hat,hc⟩ := step_transfer h hx hterm
  have herr : ({ x with stage := .err (-ETIMEDOUT) } : Xfer).step dev c.1 (t'.chans c)
      ⟨false,false,0,.inProgress⟩ = some ((t'.chans c).unmapSingle x.mapping,
        { x with stage := .returned (-ETIMEDOUT) }) := rfl
  obtain ⟨u,hstep',_,hc'⟩ := step_transfer hat (by simp) herr
  refine ⟨u,_,(Reaches.single trivial hstep).trans (Reaches.single trivial hstep'),rfl,?_⟩
  rw [hc',hc]

/-- A mapping unmapped a second time. -/
theorem not_kept_of_twice {u : State} {c : ChanId} {m : ℕ} (hpos : 1 ≤ m)
    (hle : m ≤ (u.chans c).mapped)
    (hu : (u.chans c).unmaps = inTurn (m-1) ++ [⟨m,m⟩] ++ [⟨m,m⟩]) : ¬ u.Kept c := by
  intro h
  have hcount : ((u.chans c).unmaps.map Unmap.applied).count m = 2 := by
    rw [hu,List.map_append,List.map_append,List.count_append,List.count_append,count_inTurn,
      if_neg (by omega)]
    simp
  rcases h.once m hpos hle with h1 | ⟨h0,_⟩
  · omega
  · omega

/-- A buffer unmapped with its descriptor on the channel, or with its callback to come. -/
theorem early_breaks {dev : Device} {u : State} {c : ChanId} {d : DmaChan} {m vd : ℕ}
    (h : Clients d) (hm : Mapped m d) (hw : d.waiting = [vd]) (ho : d.owner vd = m)
    (hu : u.chans c = d.unmapSingle m) : ∃ v, Reaches (step dev) free u v ∧ ¬ v.Kept c := by
  have hunmaps : (u.chans c).unmaps = inTurn (m-1) ++ [⟨m,m⟩] := by
    rw [hu,DmaChan.unmapSingle,hm.unmaps,hm.mapping]
  cases hd : d.engine.chan.descCompleted[d.called]? with
  | some b =>
    -- the callback unmaps it again
    have hb : b.vd = vd := by
      rw [tasklet_waiting hd] at hw
      exact (List.cons.inj hw).1
    have htask : (u.chans c).tasklet =
        some { (u.chans c).callback m with called := (u.chans c).called + 1 } := by
      rw [hu,DmaChan.tasklet]
      simp only [DmaChan.unmapSingle,hd,Option.map_some,hb,ho]
    have hstep : step dev u (.tasklet c) = some (u.setChan c
        { (u.chans c).callback m with called := (u.chans c).called + 1 }) := by
      rw [step,htask,Option.map_some]
    refine ⟨_,.single trivial hstep,not_kept_of_twice hm.pos ?_ ?_⟩
    · simp only [State.setChan,Function.update_self,hu]
      exact hm.mapped.ge
    · simp only [State.setChan,Function.update_self,DmaChan.callback,DmaChan.unmapSingle]
      rw [hunmaps,hu,DmaChan.unmapSingle,hm.mapping]
  | none =>
    -- its descriptor is still submitted or issued
    have hdrop := List.drop_eq_nil_iff.mpr (List.getElem?_eq_none_iff.mp hd)
    rw [waiting_eq h,hdrop,List.nil_append] at hw
    have hmem : vd ∈ (d.engine.chan.descIssued ++ d.engine.chan.descSubmitted).map Desc.vd := by
      rw [hw]
      exact List.mem_singleton_self vd
    obtain ⟨b,hb,hvd⟩ := List.mem_map.mp hmem
    have hq : b ∈ d.engine.chan.queued := List.mem_append.mpr (List.mem_append.mp hb).symm
    refine ⟨u,.refl u,fun hk => ?_⟩
    have hlast : (⟨m,m⟩ : Unmap) ∈ (u.chans c).unmaps := by
      rw [hunmaps]
      exact List.mem_append_right _ (List.mem_singleton_self _)
    have hfree := (hk.unused _ hlast).2
    rw [hu] at hfree
    exact hfree b hq (by rw [DmaChan.unmapSingle,hvd]; exact ho)

/-- After a wait that expires, some continuation unmaps a buffer too early or twice. -/
theorem expiry_breaks {dev : Device} {s t : State} {l : Label} {ls : List Label}
    (hr : Runs (step dev) Patient (State.init dev) ls s) (hl : ¬ Patient s l)
    (he : step dev s l = some t) : ∃ u c, Reaches (step dev) free t u ∧ ¬ u.Kept c := by
  cases l with
  | run k ch =>
    simp only [Patient,not_forall] at hl
    obtain ⟨c,x,hx,hst,hok⟩ := hl
    obtain ⟨o,ho,hacc⟩ := runs_accounted hr c
    have howed := hacc.stage x (running_at ho hx)
    rw [hst] at howed
    -- the step is the expiry
    have hz : (s.chans c).dmaComplete = 0 := by
      obtain ⟨a,ha,hp⟩ := hx
      by_contra hz
      simp [step,State.run,ha,hp,Xfer.step,hst,hok,hz] at he
    have hexp : x.step dev c.1 (s.chans c) ch = some (s.chans c,{ x with stage := .terminate }) := by
      simp [Xfer.step,hst,hok,hz]
    obtain ⟨t',hstep,hat,hc⟩ := step_transfer hx (by simp [hst]) hexp
    cases he.symm.trans hstep
    obtain ⟨hm,hw,hown,_⟩ | ⟨_,hne⟩ := howed
    · obtain ⟨u,e,hreach,hterm,hu⟩ := expired_unmaps hat rfl
      rw [hc] at hterm hu
      have hsub : (Op.terminateAll .inProgress).submits = [] := rfl
      have hwe := op_waiting hacc.clients hterm trivial
      rw [hsub,List.append_nil] at hwe
      obtain ⟨v,hv,hbad⟩ := early_breaks (op_clients hacc.clients hterm trivial)
        ⟨hm.mapped,hm.mapping,hm.pos,hm.unmaps⟩ (hwe.trans hw) hown hu
      exact ⟨v,c,hreach.trans hv,hbad⟩
    · exact absurd hz hne
  | _ => exact absurd trivial hl

/-- While no wait expires, every mapping is unmapped once and for its own descriptor, and
nothing is left that uses it; and once one expires, some continuation breaks this. -/
theorem mappings_kept {dev : Device} {s : State} {ls : List Label}
    (hr : Runs (step dev) Patient (State.init dev) ls s) : (∀ c, s.Kept c) ∧
    ∀ l t, ¬ Patient s l → step dev s l = some t →
      ∃ u c, Reaches (step dev) free t u ∧ ¬ u.Kept c := by
  refine ⟨?_,fun l t hl he => expiry_breaks hr hl he⟩
  intro c
  obtain ⟨o,ho,hacc⟩ := runs_accounted hr c
  exact kept_of_accounted ho hacc

/-- Nothing that may fail does. -/
def Label.succeeds : Label → Bool
  | .run _ ch => ch.ok
  | _ => true

theorem guarded_patient {dev : Device} {ls : List Label} (h : ls.all Label.succeeds = true)
    (s : State) : Guarded (step dev) Patient s ls := by
  refine guarded_of_forall ?_ s
  intro s l hl
  have hs := List.all_eq_true.mp h l hl
  cases l with
  | run k ch => exact fun _ _ _ _ => hs
  | _ => trivial

theorem oneRead_kept : ∃ s, exec (step plainDevice) (State.init plainDevice) oneRead = some s ∧
    (s.chans (.rx,0)).unmaps = [⟨1,1⟩] ∧ s.Kept (.rx,0) := by
  have hex : exec (step plainDevice) (State.init plainDevice) oneRead = some _ := rfl
  have hr := runs_of_exec (guarded_patient (by decide) _) hex
  exact ⟨_,hex,rfl,(mappings_kept hr).1 (.rx,0)⟩

/-- The late callback of the first read unmaps the buffer of the second. -/
theorem lateDone_unmaps : ∃ s, Runs (step plainDevice) free (State.init plainDevice) lateDone s ∧
    (s.chans (.rx,0)).unmaps = [⟨1,1⟩,⟨2,1⟩] ∧ ¬ s.Kept (.rx,0) := by
  have hex : exec (step plainDevice) (State.init plainDevice) lateDone = some _ := rfl
  refine ⟨_,runs_of_exec (guarded_free _ _) hex,rfl,?_⟩
  intro h
  exact absurd (h.own ⟨2,1⟩ (List.mem_cons_of_mem _ List.mem_cons_self)) (by decide)

end AkidaEdma.Driver
