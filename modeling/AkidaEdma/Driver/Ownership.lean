import AkidaEdma.Driver.System

/-! # Who has a channel

`is_used` is set exactly while one call has the channel, and a call that sleeps without
having been woken waits for channels that are all in use.
-/
namespace AkidaEdma.Driver
open DwEdma Transition

theorem getUnusedChan_some {isUsed : ChanId → Bool} {way : Way} {c : ChanId}
    (h : getUnusedChan isUsed way = some c) : isUsed c = false ∧ c.1 = way := by
  obtain ⟨i,hi,rfl⟩ := Option.map_eq_some_iff.mp h
  exact ⟨by simpa using List.find?_some hi,rfl⟩

theorem getUnusedChan_none {isUsed : ChanId → Bool} {way : Way}
    (h : getUnusedChan isUsed way = none) (i : Fin 2) : isUsed (way,i) = true := by
  have hall := List.find?_eq_none.mp (Option.map_eq_none_iff.mp h) i (List.mem_finRange i)
  simpa using hall

/-- What a call has taken and given back, by its phase. -/
structure Call.Sane (a : Call) : Prop where
  waits : a.phase.Waits → a.took = [] ∧ a.gave = []
  holds : ∀ c, a.phase.chan = some c → a.took = [c] ∧ a.gave = [] ∧ c.1 = a.way
  ended : ∀ v, a.phase = .returned v → a.gave = a.took ∧ a.took.length ≤ 1

theorem sane_enter (dev : Device) (way : Way) (pos sz : ℕ) (ok : Bool) :
    (Call.enter dev way pos sz ok).Sane ∧ (Call.enter dev way pos sz ok).phase.chan = none ∧
      (Call.enter dev way pos sz ok).phase ≠ .asleep false := by
  unfold Call.enter
  split
  · exact ⟨⟨fun _ => ⟨rfl,rfl⟩,fun _ h => by contradiction,fun _ _ => ⟨rfl,Nat.zero_le 1⟩⟩,rfl,by simp⟩
  · split
    · exact ⟨⟨fun _ => ⟨rfl,rfl⟩,fun _ h => by contradiction,fun _ _ => ⟨rfl,Nat.zero_le 1⟩⟩,rfl,by simp⟩
    · exact ⟨⟨fun _ => ⟨rfl,rfl⟩,fun _ h => by contradiction,fun _ h => by contradiction⟩,rfl,by simp⟩

/-- A waking call keeps all but its sleep. -/
theorem wake_cases (way : Way) (a : Call) : a.wake way = a ∨
    ∃ w, a.phase = .asleep w ∧ a.way = way ∧ a.wake way = { a with phase := .asleep true } := by
  unfold Call.wake
  split
  · rename_i hway
    split
    · rename_i w hp
      exact Or.inr ⟨w,hp,hway,rfl⟩
    · exact Or.inl rfl
  · exact Or.inl rfl

theorem sane_wake {a : Call} (h : a.Sane) (way : Way) : (a.wake way).Sane := by
  rcases wake_cases way a with he | ⟨w,hp,_,he⟩ <;> rw [he]
  · exact h
  · refine ⟨fun _ => h.waits (by rw [hp]; trivial),?_,?_⟩
    · intro c hc
      contradiction
    · intro v hv
      contradiction

theorem wake_chan (way : Way) (a : Call) : (a.wake way).phase.chan = a.phase.chan := by
  rcases wake_cases way a with he | ⟨w,hp,_,he⟩ <;> rw [he]
  rw [hp]
  rfl

/-- Only the other direction is still asleep after a wake-up. -/
theorem wake_asleep {way : Way} {a : Call} (h : (a.wake way).phase = .asleep false) :
    a.phase = .asleep false ∧ a.way ≠ way ∧ (a.wake way).way = a.way := by
  unfold Call.wake at h ⊢
  split at h
  · split at h
    · simp at h
    · rename_i hne
      exact absurd h (hne false)
  · rename_i hway
    rw [if_neg hway]
    exact ⟨h,hway,rfl⟩

/-- Call `k` has channel `c`. -/
def State.Has (s : State) (k : ℕ) (c : ChanId) : Prop :=
  ∃ a, s.calls k = some a ∧ a.phase.chan = some c

/-- The invariant. -/
structure Owned (s : State) : Prop where
  sane : ∀ k a, s.calls k = some a → a.Sane
  used : ∀ k c, s.Has k c → s.isUsed c = true
  unique : ∀ k j c, s.Has k c → s.Has j c → k = j
  held : ∀ c, s.isUsed c = true → ∃ k, s.Has k c
  awake : ∀ k a, s.calls k = some a → a.phase = .asleep false → ∀ i, s.isUsed (a.way,i) = true

theorem owned_init (dev : Device) : Owned (State.init dev) := by
  refine ⟨?_,?_,?_,?_,?_⟩
  · intro k a h
    contradiction
  · rintro k c ⟨a,h,_⟩
    contradiction
  · rintro k j c ⟨a,h,_⟩
    contradiction
  · intro c h
    contradiction
  · intro k a h
    contradiction

theorem setCall_calls (s : State) (k j : ℕ) (a : Call) :
    (s.setCall k a).calls j = if j = k then some a else s.calls j :=
  Function.update_apply ..

theorem setCall_has {s : State} {k j : ℕ} {b : Call} {c : ChanId} :
    (s.setCall k b).Has j c ↔ (j = k ∧ b.phase.chan = some c) ∨ (j ≠ k ∧ s.Has j c) := by
  simp only [State.Has,setCall_calls]
  by_cases hj : j = k
  · simp [hj]
  · simp [hj]

/-- A call goes on with the same channel, or without one. -/
theorem Owned.setCall {s : State} (h : Owned s) {k : ℕ} {b : Call} (hb : b.Sane)
    (hc : ∀ c, b.phase.chan = some c ↔ s.Has k c)
    (hs : b.phase = .asleep false → ∀ i, s.isUsed (b.way,i) = true) : Owned (s.setCall k b) := by
  have hhas : ∀ j c, (s.setCall k b).Has j c ↔ s.Has j c := by
    intro j c
    rw [setCall_has,hc]
    by_cases hj : j = k
    · simp [hj]
    · simp [hj]
  refine ⟨?_,?_,?_,?_,?_⟩
  · intro j a ha
    rw [setCall_calls] at ha
    split at ha
    · cases ha
      exact hb
    · exact h.sane j a ha
  · intro j c hj
    exact h.used j c ((hhas j c).mp hj)
  · intro j j' c hj hj'
    exact h.unique j j' c ((hhas j c).mp hj) ((hhas j' c).mp hj')
  · intro c hu
    obtain ⟨j,hj⟩ := h.held c hu
    exact ⟨j,(hhas j c).mpr hj⟩
  · intro j a ha hp
    rw [setCall_calls] at ha
    split at ha
    · cases ha
      exact hs hp
    · exact h.awake j a ha hp

theorem Owned.take {s : State} (h : Owned s) {k : ℕ} {a : Call} {c : ChanId}
    (ha : s.calls k = some a) (hp : a.phase.Waits) (hc : getUnusedChan s.isUsed a.way = some c) :
    Owned ({ s with isUsed := Function.update s.isUsed c true }.setCall k
      { a with phase := .loop c, took := a.took ++ [c] }) := by
  obtain ⟨hfree,hway⟩ := getUnusedChan_some hc
  obtain ⟨htook,hgave⟩ := (h.sane k a ha).waits hp
  have hnot : ∀ j, ¬ s.Has j c := by
    intro j hj
    rw [h.used j c hj] at hfree
    contradiction
  have hkeep : ∀ e, s.isUsed e = true → Function.update s.isUsed c true e = true := by
    intro e he
    rw [Function.update_apply]
    split
    · rfl
    · exact he
  refine ⟨?_,?_,?_,?_,?_⟩
  · intro j b hb
    rw [setCall_calls] at hb
    split at hb
    · cases hb
      refine ⟨fun h => h.elim,?_,fun v hv => by contradiction⟩
      rintro e ⟨⟩
      exact ⟨by rw [htook]; rfl,hgave,hway⟩
    · exact h.sane j b hb
  · intro j e hj
    rcases setCall_has.mp hj with ⟨_,he⟩ | ⟨_,hj⟩
    · cases he
      exact Function.update_self ..
    · exact hkeep e (h.used j e hj)
  · intro i j e hi hj
    rcases setCall_has.mp hi with ⟨rfl,he⟩ | ⟨_,hi⟩
    · cases he
      rcases setCall_has.mp hj with ⟨rfl,_⟩ | ⟨_,hj⟩
      · rfl
      · exact absurd hj (hnot j)
    · rcases setCall_has.mp hj with ⟨_,he⟩ | ⟨_,hj⟩
      · cases he
        exact absurd hi (hnot i)
      · exact h.unique i j e hi hj
  · intro e he
    by_cases hec : e = c
    · exact ⟨k,setCall_has.mpr (Or.inl ⟨rfl,by rw [hec]; rfl⟩)⟩
    · have hold : s.isUsed e = true := by
        have hupd : Function.update s.isUsed c true e = s.isUsed e := Function.update_of_ne hec ..
        rw [← hupd]
        exact he
      obtain ⟨j,hj⟩ := h.held e hold
      refine ⟨j,setCall_has.mpr (Or.inr ⟨?_,hj⟩)⟩
      rintro rfl
      obtain ⟨b,hb,hbc⟩ := hj
      cases ha.symm.trans hb
      cases hphase : a.phase <;> rw [hphase] at hp hbc <;> contradiction
  · intro j b hb hs i
    rw [setCall_calls] at hb
    split at hb
    · cases hb
      contradiction
    · exact hkeep _ (h.awake j b hb hs i)

theorem Owned.release {s : State} (h : Owned s) {k : ℕ} {a : Call} {c : ChanId} {ret : ℤ}
    (ha : s.calls k = some a) (hp : a.phase = .release c ret) : Owned (s.release k a c ret) := by
  obtain ⟨htook,hgave,_⟩ := (h.sane k a ha).holds c (by rw [hp]; rfl)
  have hk : s.Has k c := ⟨a,ha,by rw [hp]; rfl⟩
  -- the others have what they had
  have hhas : ∀ j e, (s.release k a c ret).Has j e ↔ j ≠ k ∧ s.Has j e := by
    intro j e
    rw [State.release,setCall_has]
    constructor
    · rintro (⟨_,hnone⟩ | ⟨hj,_,hb,hbc⟩)
      · contradiction
      · obtain ⟨b,hb',rfl⟩ := Option.map_eq_some_iff.mp hb
        exact ⟨hj,b,hb',by rw [← wake_chan c.1 b]; exact hbc⟩
    · rintro ⟨hj,b,hb,hbc⟩
      exact Or.inr ⟨hj,_,Option.map_eq_some_iff.mpr ⟨b,hb,rfl⟩,by rw [wake_chan]; exact hbc⟩
  have hused : ∀ e, e ≠ c → (s.release k a c ret).isUsed e = s.isUsed e :=
    fun e he => Function.update_of_ne he ..
  refine ⟨?_,?_,?_,?_,?_⟩
  · intro j b hb
    rw [State.release,setCall_calls] at hb
    split at hb
    · cases hb
      refine ⟨fun h => h.elim,fun _ h => by contradiction,?_⟩
      intro v _
      exact ⟨by simp [htook,hgave],by simp [htook]⟩
    · obtain ⟨b',hb',rfl⟩ := Option.map_eq_some_iff.mp hb
      exact sane_wake (h.sane j b' hb') c.1
  · intro j e hj
    obtain ⟨hne,hold⟩ := (hhas j e).mp hj
    have hec : e ≠ c := by
      rintro rfl
      exact hne (h.unique j k e hold hk)
    rw [hused e hec]
    exact h.used j e hold
  · intro i j e hi hj
    exact h.unique i j e ((hhas i e).mp hi).2 ((hhas j e).mp hj).2
  · intro e he
    have hec : e ≠ c := by
      rintro rfl
      have hfree : (s.release k a e ret).isUsed e = false := Function.update_self ..
      rw [hfree] at he
      contradiction
    rw [hused e hec] at he
    obtain ⟨j,hj⟩ := h.held e he
    refine ⟨j,(hhas j e).mpr ⟨?_,hj⟩⟩
    rintro rfl
    obtain ⟨b,hb,hbc⟩ := hj
    cases ha.symm.trans hb
    rw [hp] at hbc
    exact hec (Option.some.inj hbc).symm
  · intro j b hb hs i
    rw [State.release,setCall_calls] at hb
    split at hb
    · cases hb
      contradiction
    · obtain ⟨b',hb',rfl⟩ := Option.map_eq_some_iff.mp hb
      obtain ⟨hs',hway,hsame⟩ := wake_asleep hs
      rw [hsame,hused]
      · exact h.awake j b' hb' hs' i
      · rintro rfl
        exact hway rfl

/-- A step of a call keeps the invariant. -/
theorem owned_moves {dev : Device} {s t : State} {k : ℕ} {a : Call} {ch : Choice} (h : Owned s)
    (ha : s.calls k = some a) (hm : a.Moves dev s k ch t) : Owned t := by
  have hsane := h.sane k a ha
  -- a phase with the channel of the old one
  have hkeep : ∀ {c : ChanId} {p : Phase} {l : Loop}, a.phase.chan = some c → p.chan = some c →
      (∀ chans, Owned ({ s with chans := chans }.setCall k { a with phase := p, loop := l })) := by
    intro c p l hc hq chans
    have hs : Owned { s with chans := chans } := ⟨h.sane,h.used,h.unique,h.held,h.awake⟩
    obtain ⟨htook,hgave,hway⟩ := hsane.holds c hc
    refine hs.setCall ⟨?_,?_,?_⟩ ?_ ?_
    · intro hw
      cases p <;> contradiction
    · intro e he
      cases hq.symm.trans he
      exact ⟨htook,hgave,hway⟩
    · intro v hv
      have hv' : p = .returned v := hv
      rw [hv'] at hq
      contradiction
    · intro e
      change p.chan = some e ↔ _
      rw [hq,← hc]
      constructor
      · intro he
        exact ⟨a,ha,he⟩
      · rintro ⟨b,hb,hbc⟩
        cases ha.symm.trans hb
        exact hbc
    · intro hv
      have hv' : p = .asleep false := hv
      rw [hv'] at hq
      contradiction
  -- a phase without one, entered from the wait
  have hnone : a.phase.Waits → ∀ e, ¬ s.Has k e := by
    rintro hw e ⟨b,hb,hbc⟩
    cases ha.symm.trans hb
    cases hphase : a.phase <;> rw [hphase] at hw hbc <;> contradiction
  cases hm with
  | took hp hc => exact h.take ha hp hc
  | gaveUp hp =>
    obtain ⟨htook,hgave⟩ := hsane.waits hp
    refine h.setCall ⟨fun h => h.elim,fun _ h => by contradiction,?_⟩ ?_ (by simp)
    · intro _ _
      exact ⟨hgave.trans htook.symm,by simp [htook]⟩
    · intro c
      exact ⟨fun h => by contradiction,fun hh => absurd hh (hnone hp c)⟩
  | slept hp hc =>
    refine h.setCall ⟨fun _ => hsane.waits hp,fun _ h => by contradiction,
      fun _ h => by contradiction⟩ ?_ ?_
    · intro c
      exact ⟨fun h => by contradiction,fun hh => absurd hh (hnone hp c)⟩
    · intro _ i
      exact getUnusedChan_none hc i
  | begin hp => exact hkeep (by rw [hp]; rfl) rfl s.chans
  | transfer hp _ => exact hkeep (by rw [hp]; rfl) rfl _
  | leave hp _ hq =>
    refine hkeep (by rw [hp]; rfl) ?_ s.chans
    rcases hq with rfl | rfl | rfl <;> rfl
  | @go c _ _ hp hq =>
    have hc : a.phase.chan = some c := by rcases hp with hp | hp <;> rw [hp] <;> rfl
    refine hkeep hc ?_ s.chans
    rcases hq with ⟨_,rfl⟩ | rfl <;> rfl
  | release hp => exact h.release ha hp

/-- Nobody's channel depends on what happens on the channels. -/
theorem Owned.setChan {s : State} (h : Owned s) (c : ChanId) (d : DmaChan) :
    Owned (s.setChan c d) := ⟨h.sane,h.used,h.unique,h.held,h.awake⟩

theorem step_owned {dev : Device} {s t : State} {l : Label} (h : Owned s)
    (he : step dev s l = some t) : Owned t := by
  cases l with
  | enter k way pos sz ok =>
    simp only [step] at he
    split at he
    · rename_i hk
      cases he
      obtain ⟨hsane,hc,hs⟩ := sane_enter dev way pos sz ok
      refine h.setCall hsane ?_ (fun hp => absurd hp hs)
      intro c
      rw [hc]
      constructor
      · intro h
        contradiction
      · rintro ⟨b,hb,_⟩
        rw [hk] at hb
        contradiction
    · contradiction
  | run k ch =>
    obtain ⟨a,ha,hm⟩ := run_moves he
    exact owned_moves h ha hm
  | finish c irq =>
    obtain ⟨d,_,rfl⟩ := Option.map_eq_some_iff.mp he
    exact h.setChan c d
  | interrupt c =>
    obtain ⟨d,_,rfl⟩ := Option.map_eq_some_iff.mp he
    exact h.setChan c d
  | tasklet c =>
    obtain ⟨d,_,rfl⟩ := Option.map_eq_some_iff.mp he
    exact h.setChan c d

theorem runs_owned {dev : Device} {guard : State → Label → Prop} {s : State} {ls : List Label}
    (hr : Runs (step dev) guard (State.init dev) ls s) : Owned s :=
  hr.invariant (fun _ _ _ h _ he => step_owned h he) (owned_init dev)

/-- Call `k` is between its acquire and its release of `c`. -/
def State.Between (s : State) (k : ℕ) (c : ChanId) : Prop :=
  ∃ a, s.calls k = some a ∧ c ∈ a.took ∧ c ∉ a.gave

theorem Owned.between_iff {s : State} (h : Owned s) (k : ℕ) (c : ChanId) :
    s.Between k c ↔ s.Has k c := by
  constructor
  · rintro ⟨a,ha,htook,hgave⟩
    have hsane := h.sane k a ha
    refine ⟨a,ha,?_⟩
    have hheld : ∀ e, a.phase.chan = some e → a.phase.chan = some c := by
      intro e he
      rw [(hsane.holds e he).1] at htook
      rw [he,List.mem_singleton.mp htook]
    have hwaits : ¬ a.phase.Waits := by
      intro hw
      rw [(hsane.waits hw).1] at htook
      exact absurd htook List.not_mem_nil
    cases hp : a.phase with
    | acquire => exact absurd (by rw [hp]; trivial) hwaits
    | asleep w => exact absurd (by rw [hp]; trivial) hwaits
    | loop e => rw [← hp]; exact hheld e (by rw [hp]; rfl)
    | transfer e x => rw [← hp]; exact hheld e (by rw [hp]; rfl)
    | copy e => rw [← hp]; exact hheld e (by rw [hp]; rfl)
    | release e ret => rw [← hp]; exact hheld e (by rw [hp]; rfl)
    | returned v =>
      rw [(hsane.ended v hp).1] at hgave
      exact absurd htook hgave
  · rintro ⟨a,ha,hc⟩
    obtain ⟨htook,hgave,_⟩ := (h.sane k a ha).holds c hc
    exact ⟨a,ha,by simp [htook],by simp [hgave]⟩

/-- A channel is in use exactly while one call is between its acquire and its release, two
transfers never run on one channel, a call that returned gave back what it took (nothing if
its wait was interrupted), and nobody sleeps unwoken while a channel is free. -/
theorem channel_ownership {dev : Device} {s : State} {ls : List Label}
    (hr : Runs (step dev) free (State.init dev) ls s) :
    (∀ c, s.isUsed c = true ↔ ∃! k, s.Between k c) ∧
    (∀ c k j a b x y, s.calls k = some a → a.phase = .transfer c x → s.calls j = some b →
      b.phase = .transfer c y → k = j) ∧
    (∀ k a v, s.calls k = some a → a.phase = .returned v →
      a.gave = a.took ∧ a.took.length ≤ 1) ∧
    (∀ k a ch t b v, s.calls k = some a → a.phase.Waits → step dev s (.run k ch) = some t →
      t.calls k = some b → b.phase = .returned v → b.took = [] ∧ b.gave = []) ∧
    (∀ k a, s.calls k = some a → a.phase = .asleep false → ∀ i, s.isUsed (a.way,i) = true) := by
  have h := runs_owned hr
  refine ⟨?_,?_,?_,?_,h.awake⟩
  · intro c
    constructor
    · intro hu
      obtain ⟨k,hk⟩ := h.held c hu
      refine ⟨k,(h.between_iff k c).mpr hk,?_⟩
      intro j hj
      exact h.unique j k c ((h.between_iff j c).mp hj) hk
    · rintro ⟨k,hk,_⟩
      exact h.used k c ((h.between_iff k c).mp hk)
  · intro c k j a b x y ha hx hb hy
    exact h.unique k j c ⟨a,ha,by rw [hx]; rfl⟩ ⟨b,hb,by rw [hy]; rfl⟩
  · intro k a v ha hv
    exact (h.sane k a ha).ended v hv
  · intro k a ch t b v ha hw he hb hv
    obtain ⟨htook,hgave⟩ := (h.sane k a ha).waits hw
    obtain ⟨a',ha',hm⟩ := run_moves he
    cases ha.symm.trans ha'
    cases hm with
    | gaveUp _ =>
      rw [setCall_calls,if_pos rfl] at hb
      cases hb
      exact ⟨htook,hgave⟩
    | took _ _ =>
      rw [setCall_calls,if_pos rfl] at hb
      cases hb
      contradiction
    | slept _ _ =>
      rw [setCall_calls,if_pos rfl] at hb
      cases hb
      contradiction
    | begin hp => rw [hp] at hw; contradiction
    | transfer hp _ => rw [hp] at hw; contradiction
    | leave hp _ _ => rw [hp] at hw; contradiction
    | go hp _ => rcases hp with hp | hp <;> rw [hp] at hw <;> contradiction
    | release hp => rw [hp] at hw; contradiction

/-- A device for concrete runs. -/
def plainDevice : Device := ⟨plainChip,defaultRam,fun _ => 1,fun _ => Nat.le_refl 1⟩

/-- A choice with which everything succeeds. -/
def yes : Choice := ⟨true,false,4096,.complete⟩

/-- Three readers enter. The third sleeps until the first returns and gives `c` back. -/
def threeReaders (c : ChanId) : List Label :=
  [.enter 0 .rx 0 4 true,.enter 1 .rx 8 4 true,.enter 2 .rx 16 4 true,
    .run 0 yes,.run 1 yes,.run 2 yes] ++ List.replicate 7 (.run 0 yes) ++
    [.finish c .done,.interrupt c,.tasklet c] ++
    List.replicate 5 (.run 0 yes) ++ [.run 2 yes]

theorem thirdReader_owns : ∃ s a, exec (step plainDevice) (State.init plainDevice)
      (threeReaders (.rx,0)) = some s ∧ (∃! k, s.Between k (.rx,0)) ∧
    (∃! k, s.Between k (.rx,1)) ∧ s.Between 2 (.rx,0) ∧
    s.calls 0 = some a ∧ a.phase = .returned 4 ∧ a.took = [(.rx,0)] ∧ a.gave = a.took := by
  have hex : exec (step plainDevice) (State.init plainDevice)
    (threeReaders (.rx,0)) = some _ := rfl
  obtain ⟨hused,_,hended,_,_⟩ := channel_ownership (runs_of_exec (guarded_free _ _) hex)
  exact ⟨_,_,hex,(hused (.rx,0)).mp rfl,(hused (.rx,1)).mp rfl,
    ⟨_,rfl,List.mem_singleton_self _,List.not_mem_nil⟩,rfl,rfl,rfl,(hended 0 _ 4 rfl rfl).1⟩

end AkidaEdma.Driver
