import AkidaEdma.Driver.Ownership

/-! # What happens on one channel

A session is a channel with the call of `akida_dma_transfer` that runs on it, if any. The
calls on a channel come one after the other, so every step of the driver is, for each
channel, a move of its session or nothing; what every move keeps holds in every run.
-/
namespace AkidaEdma.Driver
open DwEdma Transition

structure Session where
  chan : DmaChan
  xfer : Option Xfer

namespace Session

inductive Label
  | begin
  | run (ch : Choice)
  | leave
  | finish
  | interrupt
  | tasklet

inductive Moves (dev : Device) (way : Way) (s : Session) : Label → Session → Prop
  | begin (devAddr len : ℕ) (h : s.xfer = none) :
      Moves dev way s .begin ⟨s.chan,some (Xfer.start devAddr len)⟩
  | run {x x' : Xfer} {c : DmaChan} {ch : Choice} (h : s.xfer = some x)
      (ht : x.Takes dev way s.chan ch c x') : Moves dev way s (.run ch) ⟨c,some x'⟩
  | leave {x : Xfer} {ret : ℤ} (h : s.xfer = some x) (hs : x.stage = .returned ret) :
      Moves dev way s .leave ⟨s.chan,none⟩
  | finish {irq : Irq} {e : DwEdma.State}
      (he : DwEdma.step dev.chip s.chan.engine (.finish irq) = some e) :
      Moves dev way s .finish ⟨{ s.chan with engine := e },s.xfer⟩
  | interrupt {e : DwEdma.State} (he : DwEdma.step dev.chip s.chan.engine .interrupt = some e) :
      Moves dev way s .interrupt ⟨{ s.chan with engine := e },s.xfer⟩
  | tasklet {d : Desc} (h : s.chan.engine.chan.descCompleted[s.chan.called]? = some d) :
      Moves dev way s .tasklet
        ⟨{ s.chan.callback (s.chan.owner d.vd) with called := s.chan.called + 1 },s.xfer⟩

end Session

/-! ## The sessions of the driver -/

/-- The transfer that a phase has running on `c`. -/
def Phase.xfer (c : ChanId) : Phase → Option Xfer
  | .transfer e x => if e = c then some x else none
  | _ => none

theorem phase_xfer_some {c : ChanId} {p : Phase} {x : Xfer} :
    p.xfer c = some x ↔ p = .transfer c x := by
  cases p with
  | transfer e y =>
    simp only [Phase.xfer,Phase.transfer.injEq]
    split
    · rename_i he
      simp [he]
    · rename_i he
      simp [he]
  | _ => simp [Phase.xfer]

/-- Call `k` runs transfer `x` on `c`. -/
def State.At (s : State) (k : ℕ) (c : ChanId) (x : Xfer) : Prop :=
  ∃ a, s.calls k = some a ∧ a.phase = .transfer c x

/-- What runs on `c`. -/
def State.Running (s : State) (c : ChanId) (o : Option Xfer) : Prop :=
  ∀ x, o = some x ↔ ∃ k, s.At k c x

theorem State.At.has {s : State} {k : ℕ} {c : ChanId} {x : Xfer} (h : s.At k c x) : s.Has k c := by
  obtain ⟨a,ha,hp⟩ := h
  exact ⟨a,ha,by rw [hp]; rfl⟩

theorem running_congr {s t : State} {c : ChanId} {o : Option Xfer}
    (h : ∀ k x, t.At k c x ↔ s.At k c x) (ho : s.Running c o) : t.Running c o := by
  intro x
  rw [ho x]
  exact exists_congr fun k => (h k x).symm

theorem running_at {s : State} {k : ℕ} {c : ChanId} {x : Xfer} {o : Option Xfer}
    (ho : s.Running c o) (h : s.At k c x) : o = some x := (ho x).mpr ⟨k,h⟩

/-- The call that has the channel decides what runs on it. -/
theorem running_has {s : State} {k : ℕ} {a : Call} {c : ChanId} {o : Option Xfer} (h : Owned s)
    (ha : s.calls k = some a) (hc : a.phase.chan = some c) (ho : s.Running c o) :
    o = a.phase.xfer c := by
  apply Option.ext
  intro x
  rw [ho x,phase_xfer_some]
  constructor
  · rintro ⟨j,hj⟩
    cases h.unique j k c hj.has ⟨a,ha,hc⟩
    obtain ⟨b,hb,hp⟩ := hj
    cases ha.symm.trans hb
    exact hp
  · intro hp
    exact ⟨k,a,ha,hp⟩

theorem setCall_at {s : State} {k j : ℕ} {b : Call} {c : ChanId} {x : Xfer} :
    (s.setCall k b).At j c x ↔ (j = k ∧ b.phase = .transfer c x) ∨ (j ≠ k ∧ s.At j c x) := by
  simp only [State.At,setCall_calls]
  by_cases hj : j = k
  · simp [hj]
  · simp [hj]

/-- A call without a transfer on `c` before and after does not matter to `c`. -/
theorem running_other {s : State} {k : ℕ} {a b : Call} {c : ChanId} {o : Option Xfer}
    (ha : s.calls k = some a) (hold : a.phase.xfer c = none) (hnew : b.phase.xfer c = none)
    (ho : s.Running c o) : (s.setCall k b).Running c o := by
  refine running_congr ?_ ho
  intro j x
  rw [setCall_at]
  constructor
  · rintro (⟨_,hp⟩ | ⟨_,hj⟩)
    · rw [phase_xfer_some.mpr hp] at hnew
      contradiction
    · exact hj
  · intro hj
    refine Or.inr ⟨?_,hj⟩
    rintro rfl
    obtain ⟨a',ha',hp⟩ := hj
    cases ha.symm.trans ha'
    rw [phase_xfer_some.mpr hp] at hold
    contradiction

theorem running_set {s : State} {k : ℕ} (h : Owned s) {c : ChanId} (hk : s.Has k c) (b : Call) :
    (s.setCall k b).Running c (b.phase.xfer c) := by
  intro x
  rw [phase_xfer_some]
  constructor
  · intro hp
    exact ⟨k,setCall_at.mpr (Or.inl ⟨rfl,hp⟩)⟩
  · rintro ⟨j,hj⟩
    rcases setCall_at.mp hj with ⟨_,hp⟩ | ⟨hne,hj⟩
    · exact hp
    · exact absurd (h.unique j k c hj.has hk) hne

/-- Which move of the session of `c` a step of the driver can be. -/
def Label.On (l : Label) (s : State) (c : ChanId) : Session.Label → Prop
  | .run ch => ∃ k x, l = .run k ch ∧ s.At k c x
  | .interrupt => l = .interrupt c
  | _ => True

/-- A step of the driver keeps the session of `c`, or is a move of it. -/
def Follows (dev : Device) (s t : State) (l : Label) (c : ChanId) (o : Option Xfer) : Prop :=
  ∃ o', t.Running c o' ∧ ((t.chans c = s.chans c ∧ o' = o) ∨
    ∃ m, l.On s c m ∧ Session.Moves dev c.1 ⟨s.chans c,o⟩ m ⟨t.chans c,o'⟩)

theorem follows_same {dev : Device} {s t : State} {l : Label} {c : ChanId} {o : Option Xfer}
    (hc : t.chans c = s.chans c) (ho : t.Running c o) : Follows dev s t l c o :=
  ⟨o,ho,Or.inl ⟨hc,rfl⟩⟩

theorem wake_xfer (way : Way) (a : Call) (c : ChanId) :
    (a.wake way).phase.xfer c = a.phase.xfer c := by
  rcases wake_cases way a with he | ⟨w,hp,_,he⟩ <;> rw [he]
  rw [hp]
  rfl

theorem moves_follows {dev : Device} {s t : State} {k : ℕ} {a : Call} {ch : Choice} {c : ChanId}
    {o : Option Xfer} (h : Owned s) (ha : s.calls k = some a) (hm : a.Moves dev s k ch t)
    (ho : s.Running c o) : Follows dev s t (.run k ch) c o := by
  have hwaits : a.phase.Waits → a.phase.xfer c = none := by
    intro hw
    cases hp : a.phase <;> rw [hp] at hw <;> first | rfl | contradiction
  cases hm with
  | took hp hc => exact follows_same rfl (running_other (s := { s with isUsed := _ }) ha (hwaits hp) rfl ho)
  | gaveUp hp => exact follows_same rfl (running_other ha (hwaits hp) rfl ho)
  | slept hp _ => exact follows_same rfl (running_other ha (hwaits hp) rfl ho)
  | @begin e hp =>
    have hchan : a.phase.chan = some e := by rw [hp]; rfl
    by_cases hec : e = c
    · subst hec
      have hnone := running_has h ha hchan ho
      rw [hp] at hnone
      refine ⟨_,running_set h ⟨a,ha,hchan⟩ _,Or.inr ⟨.begin,trivial,?_⟩⟩
      simp only [Phase.xfer,if_true]
      exact .begin _ _ hnone
    · refine follows_same rfl (running_other ha ?_ ?_ ho)
      · rw [hp]
        rfl
      · simp [Phase.xfer,hec]
  | @transfer e x x' d hp ht =>
    have hchan : a.phase.chan = some e := by rw [hp]; rfl
    by_cases hec : e = c
    · subst hec
      have hsome := running_has h ha hchan ho
      rw [phase_xfer_some.mpr hp] at hsome
      have hset := running_set (s := { s with chans := Function.update s.chans e d })
        ⟨h.sane,h.used,h.unique,h.held,h.awake⟩ ⟨a,ha,hchan⟩ { a with phase := .transfer e x' }
      refine ⟨_,hset,Or.inr ⟨.run ch,⟨k,x,rfl,a,ha,hp⟩,?_⟩⟩
      have hd : Function.update s.chans e d e = d := Function.update_self ..
      simp only [State.setCall,hd,Phase.xfer,if_true]
      exact .run hsome ht
    · have hd : Function.update s.chans e d c = s.chans c := Function.update_of_ne (Ne.symm hec) ..
      refine follows_same hd (running_other (s := { s with chans := _ }) ha ?_ ?_ ho)
      · simp [hp,Phase.xfer,hec]
      · simp [Phase.xfer,hec]
  | @leave e x ret p l hp hs hq =>
    have hchan : a.phase.chan = some e := by rw [hp]; rfl
    have hnew : ∀ b, p.xfer b = none := by
      intro b
      rcases hq with rfl | rfl | rfl <;> rfl
    by_cases hec : e = c
    · subst hec
      have hsome := running_has h ha hchan ho
      rw [phase_xfer_some.mpr hp] at hsome
      refine ⟨_,running_set h ⟨a,ha,hchan⟩ _,Or.inr ⟨.leave,trivial,?_⟩⟩
      rw [hnew]
      exact .leave hsome hs
    · refine follows_same rfl (running_other ha ?_ (hnew c) ho)
      simp [hp,Phase.xfer,hec]
  | go hp hq =>
    refine follows_same rfl (running_other ha ?_ ?_ ho)
    · rcases hp with hp | hp <;> rw [hp] <;> rfl
    · rcases hq with ⟨_,rfl⟩ | rfl <;> rfl
  | @release e ret hp =>
    have hwake : State.Running { s with
        isUsed := Function.update s.isUsed e false
        calls := fun j => (s.calls j).map (Call.wake e.1) } c o := by
      refine running_congr ?_ ho
      intro j x
      constructor
      · rintro ⟨_,hb,hx⟩
        obtain ⟨b,hb',rfl⟩ := Option.map_eq_some_iff.mp hb
        refine ⟨b,hb',?_⟩
        rw [← phase_xfer_some] at hx ⊢
        rw [← wake_xfer e.1 b]
        exact hx
      · rintro ⟨b,hb,hx⟩
        refine ⟨_,Option.map_eq_some_iff.mpr ⟨b,hb,rfl⟩,?_⟩
        rw [← phase_xfer_some] at hx ⊢
        rw [wake_xfer]
        exact hx
    refine follows_same rfl (running_other (a := a.wake e.1) ?_ ?_ rfl hwake)
    · exact Option.map_eq_some_iff.mpr ⟨a,ha,rfl⟩
    · rw [wake_xfer,hp]
      rfl

theorem step_follows {dev : Device} {s t : State} {l : Label} {c : ChanId} {o : Option Xfer}
    (h : Owned s) (he : step dev s l = some t) (ho : s.Running c o) : Follows dev s t l c o := by
  cases l with
  | enter k way pos sz ok =>
    simp only [step] at he
    split at he
    · rename_i hk
      cases he
      obtain ⟨_,hc,_⟩ := sane_enter dev way pos sz ok
      refine follows_same rfl (running_congr ?_ ho)
      intro j x
      rw [setCall_at]
      constructor
      · rintro (⟨_,hp⟩ | ⟨_,hj⟩)
        · rw [hp] at hc
          contradiction
        · exact hj
      · intro hj
        refine Or.inr ⟨?_,hj⟩
        rintro rfl
        obtain ⟨b,hb,_⟩ := hj
        rw [hk] at hb
        contradiction
    · contradiction
  | run k ch =>
    obtain ⟨a,ha,hm⟩ := run_moves he
    exact moves_follows h ha hm ho
  | finish e irq =>
    obtain ⟨d,hd,rfl⟩ := Option.map_eq_some_iff.mp he
    obtain ⟨f,hf,rfl⟩ := op_some hd
    by_cases hec : c = e
    · subst hec
      refine ⟨o,ho,Or.inr ⟨.finish,trivial,?_⟩⟩
      simp only [State.setChan,Function.update_self]
      exact .finish hf
    · exact follows_same (Function.update_of_ne hec ..) ho
  | interrupt e =>
    obtain ⟨d,hd,rfl⟩ := Option.map_eq_some_iff.mp he
    obtain ⟨f,hf,rfl⟩ := op_some hd
    by_cases hec : c = e
    · subst hec
      refine ⟨o,ho,Or.inr ⟨.interrupt,rfl,?_⟩⟩
      simp only [State.setChan,Function.update_self]
      exact .interrupt hf
    · exact follows_same (Function.update_of_ne hec ..) ho
  | tasklet e =>
    obtain ⟨d,hd,rfl⟩ := Option.map_eq_some_iff.mp he
    obtain ⟨f,hf,rfl⟩ := Option.map_eq_some_iff.mp hd
    by_cases hec : c = e
    · subst hec
      refine ⟨o,ho,Or.inr ⟨.tasklet,trivial,?_⟩⟩
      simp only [State.setChan,Function.update_self]
      exact .tasklet hf
    · exact follows_same (Function.update_of_ne hec ..) ho

/-- What the moves of the sessions keep holds in every run of the driver. -/
theorem runs_sessions {dev : Device} {guard : State → Label → Prop}
    {allowed : Session → Session.Label → Prop} {I : Session → Prop}
    (hinit : ∀ c, I ⟨DmaChan.init dev c,none⟩)
    (hmove : ∀ way s m t, I s → allowed s m → Session.Moves dev way s m t → I t)
    (hguard : ∀ s l c o m, guard s l → s.Running c o → l.On s c m → allowed ⟨s.chans c,o⟩ m)
    {s : State} {ls : List Label} (hr : Runs (step dev) guard (State.init dev) ls s) (c : ChanId) :
    ∃ o, s.Running c o ∧ I ⟨s.chans c,o⟩ := by
  have hrun : Owned s ∧ ∃ o, s.Running c o ∧ I ⟨s.chans c,o⟩ := by
    apply hr.invariant (I := fun s => Owned s ∧ ∃ o, s.Running c o ∧ I ⟨s.chans c,o⟩)
    · rintro s l t ⟨h,o,ho,hi⟩ hg he
      refine ⟨step_owned h he,?_⟩
      obtain ⟨o',ho',⟨hc,rfl⟩ | ⟨m,hon,hm⟩⟩ := step_follows h he ho
      · exact ⟨o',ho',by rw [hc]; exact hi⟩
      · exact ⟨o',ho',hmove c.1 _ m _ hi (hguard s l c o m hg ho hon) hm⟩
    · refine ⟨owned_init dev,none,?_,hinit c⟩
      intro x
      constructor
      · intro hx
        contradiction
      · rintro ⟨k,a,ha,_⟩
        contradiction
  exact hrun.2

end AkidaEdma.Driver
