import AkidaEdma.Driver.DmaTransfer
import AkidaEdma.Library.Transition

/-! # The driver

Any number of calls of `akida_read` and `akida_write`, the four channels they share, the
hardware and the tasklets. A step is one of a call, an interrupt, or a callback. The code
under `wq->lock` is one step; a wait on the queue of a direction is left by a wake-up of the
queue or by a signal, and then looks for a channel before it gives up.
-/
namespace AkidaEdma.Driver
open DwEdma Transition

/-- Where a call is. `asleep` knows if it was woken since it went to sleep. -/
inductive Phase
  | acquire
  | asleep (woken : Bool)
  | loop (c : ChanId)
  | transfer (c : ChanId) (x : Xfer)
  | copy (c : ChanId)
  | release (c : ChanId) (ret : ℤ)
  | returned (ret : ℤ)
  deriving DecidableEq, Repr

/-- A call of `akida_read` or `akida_write`. `took` and `gave` record the channels that it
acquired and released; nothing in the code reads them. -/
structure Call where
  way : Way
  sz : ℕ
  loop : Loop
  phase : Phase
  took : List ChanId
  gave : List ChanId
  deriving DecidableEq, Repr

structure State where
  chans : ChanId → DmaChan
  isUsed : ChanId → Bool
  calls : ℕ → Option Call

def State.init (dev : Device) : State := ⟨DmaChan.init dev,fun _ => false,fun _ => none⟩

/-- `akida_get_unsused_chan` on the channels of a direction. -/
def getUnusedChan (isUsed : ChanId → Bool) (way : Way) : Option ChanId :=
  ((List.finRange 2).find? fun i => !isUsed (way,i)).map fun i => (way,i)

/-- A call up to `akida_acquire_chan`; `ok` tells if `kmalloc` succeeds. -/
def Call.enter (dev : Device) (way : Way) (pos sz : ℕ) (ok : Bool) : Call where
  way := way
  sz := sz
  loop := Loop.start pos sz
  phase :=
    if !isAllowed dev.ram pos sz then .returned (-EINVAL)
    else if !ok then .returned (-ENOMEM)
    else .acquire
  took := []
  gave := []

/-- What `wake_up_locked` on the queue of a direction does to a call. -/
def Call.wake (way : Way) (a : Call) : Call :=
  if a.way = way then
    match a.phase with
    | .asleep _ => { a with phase := .asleep true }
    | _ => a
  else a

def State.setCall (s : State) (k : ℕ) (a : Call) : State :=
  { s with calls := Function.update s.calls k (some a) }

/-- `akida_acquire_chan` with `wq->lock` held, up to where it drops the lock. -/
def State.acquire (s : State) (k : ℕ) (a : Call) (signal : Bool) : State :=
  match getUnusedChan s.isUsed a.way with
  | some c => { s with isUsed := Function.update s.isUsed c true }.setCall k
      { a with phase := .loop c, took := a.took ++ [c] }
  | none =>
    if signal then s.setCall k { a with phase := .returned (-ERESTARTSYS) }
    else s.setCall k { a with phase := .asleep false }

/-- `akida_release_chan`, and the return of the call. -/
def State.release (s : State) (k : ℕ) (a : Call) (c : ChanId) (ret : ℤ) : State :=
  { s with
    isUsed := Function.update s.isUsed c false
    calls := fun j => (s.calls j).map (Call.wake c.1) }.setCall k
      { a with phase := .returned ret, gave := a.gave ++ [c] }

/-- After a chunk: the next one. -/
def Call.next (a : Call) (c : ChanId) : Call := { a with phase := .loop c, loop := a.loop.advance }

/-- A step of call `k`. -/
def State.run (dev : Device) (s : State) (k : ℕ) (ch : Choice) : Option State :=
  match s.calls k with
  | none => none
  | some a =>
    match a.phase with
    | .acquire => some (s.acquire k a ch.signal)
    | .asleep woken => if woken || ch.signal then some (s.acquire k a ch.signal) else none
    | .loop c =>
      if a.loop.left = 0 then some (s.setCall k { a with phase := .release c a.sz })
      -- a write copies its chunk from the user first
      else if a.way = .tx ∧ ch.ok = false then
        some (s.setCall k { a with phase := .release c (-EFAULT) })
      else some (s.setCall k { a with phase := .transfer c (Xfer.start a.loop.pos a.loop.size) })
    | .transfer c x =>
      match x.stage with
      | .returned ret =>
        if ret < 0 then some (s.setCall k { a with phase := .release c ret })
        else if a.way = .rx then some (s.setCall k { a with phase := .copy c })
        else some (s.setCall k (a.next c))
      | _ => (x.step dev c.1 (s.chans c) ch).map fun r =>
          { s with chans := Function.update s.chans c r.1 }.setCall k
            { a with phase := .transfer c r.2 }
    | .copy c =>
      if ch.ok then some (s.setCall k (a.next c))
      else some (s.setCall k { a with phase := .release c (-EFAULT) })
    | .release c ret => some (s.release k a c ret)
    | .returned _ => none

inductive Label
  | enter (k : ℕ) (way : Way) (pos sz : ℕ) (ok : Bool)
  | run (k : ℕ) (ch : Choice)
  | finish (c : ChanId) (irq : Irq)
  | interrupt (c : ChanId)
  | tasklet (c : ChanId)
  deriving DecidableEq, Repr

def State.setChan (s : State) (c : ChanId) (d : DmaChan) : State :=
  { s with chans := Function.update s.chans c d }

def step (dev : Device) (s : State) : Label → Option State
  | .enter k way pos sz ok =>
    match s.calls k with
    | none => some (s.setCall k (Call.enter dev way pos sz ok))
    | some _ => none
  | .run k ch => s.run dev k ch
  | .finish c irq => ((s.chans c).op dev (.finish irq)).map (s.setChan c)
  | .interrupt c => ((s.chans c).op dev .interrupt).map (s.setChan c)
  | .tasklet c => (s.chans c).tasklet.map (s.setChan c)

/-! ## What a step of a call can do -/

/-- The channel that a call has at a phase. -/
def Phase.chan : Phase → Option ChanId
  | .loop c => some c
  | .transfer c _ => some c
  | .copy c => some c
  | .release c _ => some c
  | _ => none

/-- The call is in `akida_acquire_chan`. -/
def Phase.Waits : Phase → Prop
  | .acquire => True
  | .asleep _ => True
  | _ => False

inductive Call.Moves (dev : Device) (s : State) (k : ℕ) (a : Call) (ch : Choice) : State → Prop
  | took {c : ChanId} (hp : a.phase.Waits) (hc : getUnusedChan s.isUsed a.way = some c) :
      Moves dev s k a ch ({ s with isUsed := Function.update s.isUsed c true }.setCall k
        { a with phase := .loop c, took := a.took ++ [c] })
  | gaveUp (hp : a.phase.Waits) : Moves dev s k a ch
      (s.setCall k { a with phase := .returned (-ERESTARTSYS) })
  | slept (hp : a.phase.Waits) (hc : getUnusedChan s.isUsed a.way = none) :
      Moves dev s k a ch (s.setCall k { a with phase := .asleep false })
  | begin {c : ChanId} (hp : a.phase = .loop c) : Moves dev s k a ch
      (s.setCall k { a with phase := .transfer c (Xfer.start a.loop.pos a.loop.size) })
  | transfer {c : ChanId} {x x' : Xfer} {d : DmaChan} (hp : a.phase = .transfer c x)
      (ht : x.Takes dev c.1 (s.chans c) ch d x') : Moves dev s k a ch
      ({ s with chans := Function.update s.chans c d }.setCall k { a with phase := .transfer c x' })
  | leave {c : ChanId} {x : Xfer} {ret : ℤ} {p : Phase} {l : Loop}
      (hp : a.phase = .transfer c x) (hs : x.stage = .returned ret)
      (hq : p = .release c ret ∨ p = .copy c ∨ p = .loop c) : Moves dev s k a ch
      (s.setCall k { a with phase := p, loop := l })
  | go {c : ChanId} {p : Phase} {l : Loop} (hp : a.phase = .loop c ∨ a.phase = .copy c)
      (hq : (∃ ret, p = .release c ret) ∨ p = .loop c) : Moves dev s k a ch
      (s.setCall k { a with phase := p, loop := l })
  | release {c : ChanId} {ret : ℤ} (hp : a.phase = .release c ret) : Moves dev s k a ch
      (s.release k a c ret)

theorem acquire_moves {dev : Device} {s : State} {k : ℕ} {a : Call} {ch : Choice}
    (hp : a.phase.Waits) : a.Moves dev s k ch (s.acquire k a ch.signal) := by
  unfold State.acquire
  split
  · rename_i c hc
    exact .took hp hc
  · rename_i hc
    split
    · exact .gaveUp hp
    · exact .slept hp hc

theorem run_moves {dev : Device} {s t : State} {k : ℕ} {ch : Choice}
    (h : s.run dev k ch = some t) : ∃ a, s.calls k = some a ∧ a.Moves dev s k ch t := by
  unfold State.run at h
  split at h
  · contradiction
  · rename_i a ha
    refine ⟨a,ha,?_⟩
    split at h
    · rename_i hp
      cases h
      exact acquire_moves (by rw [hp]; trivial)
    · rename_i woken hp
      split at h
      · cases h
        exact acquire_moves (by rw [hp]; trivial)
      · contradiction
    · rename_i c hp
      split at h
      · cases h
        exact .go (Or.inl hp) (Or.inl ⟨_,rfl⟩)
      · split at h
        · cases h
          exact .go (Or.inl hp) (Or.inl ⟨_,rfl⟩)
        · cases h
          exact .begin hp
    · rename_i c x hp
      split at h
      · rename_i ret hs
        split at h
        · cases h
          exact .leave hp hs (Or.inl rfl)
        · split at h
          · cases h
            exact .leave hp hs (Or.inr (Or.inl rfl))
          · cases h
            exact .leave hp hs (Or.inr (Or.inr rfl))
      · obtain ⟨⟨d,x'⟩,ht,rfl⟩ := Option.map_eq_some_iff.mp h
        exact .transfer hp (xfer_step_takes ht)
    · rename_i c hp
      split at h
      · cases h
        exact .go (Or.inr hp) (Or.inr rfl)
      · cases h
        exact .go (Or.inr hp) (Or.inl ⟨_,rfl⟩)
    · rename_i c ret hp
      cases h
      exact .release hp
    · contradiction

end AkidaEdma.Driver
