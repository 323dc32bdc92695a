import AkidaEdma.Engine.Run

/-! # Freeing a channel

`dw_edma_free_chan_resources` step by step. Between any two of its steps the clock may tick, and
the hardware of the channel may end a chunk or have an interrupt handled. Its deadline lies
`wait` ticks ahead; `time_before` and `time_after_eq` see through a wrap of `jiffies`, which
counts on here.
-/
namespace AkidaEdma.DwEdma
open Transition

/-- `dw_edma_alloc_chan_resources`. -/
def allocChanResources (chan : Chan) : ℤ := if chan.status ≠ .idle then -EBUSY else 0

/-- Before the test of the loop, before the call in it, before the test after a call that
failed, or behind the loop. -/
inductive FreePc | test | poll | late | left
  deriving DecidableEq, Repr

/-- A call of `dw_edma_free_chan_resources` on the channel of `sys`. -/
structure Freeing where
  sys : State
  jiffies : ℕ
  timeout : ℕ
  pc : FreePc
  deriving DecidableEq, Repr

def Freeing.enter (sys : State) (jiffies wait : ℕ) : Freeing := ⟨sys,jiffies,jiffies + wait,.test⟩

/-- The next step of the call. -/
def Freeing.call (f : Freeing) : Option Freeing :=
  match f.pc with
  | .test => some { f with pc := if f.jiffies < f.timeout then .poll else .left }
  | .poll =>
    let r := deviceTerminateAll f.sys.hw.chStatus f.sys.chan
    some { f with sys := { f.sys with chan := r.1 }, pc := if r.2 = 0 then .left else .late }
  | .late => some { f with pc := if f.timeout ≤ f.jiffies then .left else .test }
  | .left => none

inductive FreeLabel
  | tick
  | finish (irq : Irq)
  | interrupt
  | call
  deriving DecidableEq, Repr

def freeStep (chip : Chip) (f : Freeing) : FreeLabel → Option Freeing
  | .tick => some { f with jiffies := f.jiffies + 1 }
  | .finish irq => (step chip f.sys (.finish irq)).map fun s => { f with sys := s }
  | .interrupt => (step chip f.sys .interrupt).map fun s => { f with sys := s }
  | .call => f.call

/-- What the call is to leave behind. -/
structure State.Freed (s : State) : Prop where
  idle : s.chan.status = .idle
  unconfigured : s.chan.configured = false
  request : s.chan.request = .none
  hardware : s.hw.outstanding = []
  again : allocChanResources s.chan = 0

/-- In every order of ticks and interrupts, if the call returns before the deadline then the
channel is freed. -/
def FreesInTime (chip : Chip) (s : State) (jiffies wait : ℕ) : Prop :=
  ∀ ls f, Runs (freeStep chip) free (Freeing.enter s jiffies wait) ls f → f.pc = .left →
    f.jiffies < f.timeout → f.sys.Freed

/-- There is nothing to wait for: the hardware has no chunk, no request is pending, and a
configured channel is not busy, or falsely so; one that is not configured is idle. -/
structure State.AtRest (s : State) : Prop where
  hardware : s.hw.outstanding = []
  request : s.chan.request = .none
  configured : s.chan.configured = true → s.chan.status = .busy → s.hw.chStatus = .complete
  unconfigured : s.chan.configured = false → s.chan.status = .idle

/-- The channel after the poll. -/
def State.polled (s : State) : State :=
  { s with chan := (deviceTerminateAll s.hw.chStatus s.chan).1 }

theorem allocChanResources_idle {c : Chan} (h : c.status = .idle) : allocChanResources c = 0 := by
  simp [allocChanResources,h]

/-- The exits that leave the channel idle and not configured. -/
theorem polled_freed_of_given_up {s : State} (hconf : s.chan.configured = true)
    (hbusy : s.chan.status = .busy → s.hw.chStatus = .complete)
    (he : s.polled.chan = { s.chan with status := .idle, configured := false }) :
    s.polled.Freed ↔ s.AtRest := by
  constructor
  · intro h
    have hreq := h.request
    rw [he] at hreq
    exact ⟨h.hardware,hreq,fun _ => hbusy,fun hc => absurd (hc.symm.trans hconf) (by decide)⟩
  · intro h
    have hidle : s.polled.chan.status = .idle := by rw [he]
    exact ⟨hidle,by rw [he],by rw [he]; exact h.request,h.hardware,allocChanResources_idle hidle⟩

/-- One poll frees exactly the channels at rest. -/
theorem polled_freed_iff (s : State) : s.polled.Freed ↔ s.AtRest := by
  rcases deviceTerminateAll_cases s.hw.chStatus s.chan with
    ⟨hc,he⟩ | ⟨hc,hst,he⟩ | ⟨hc,hst,hcomp,he⟩ | ⟨hc,hst,hcomp,he⟩
  · have hsame : s.polled = s := by rw [State.polled,he]
    rw [hsame]
    constructor
    · intro h
      exact ⟨h.hardware,h.request,fun hconf => absurd (hconf.symm.trans hc) (by decide),fun _ => h.idle⟩
    · intro h
      have hidle := h.unconfigured hc
      exact ⟨hidle,hc,h.request,h.hardware,allocChanResources_idle hidle⟩
  · exact polled_freed_of_given_up hc (fun hbusy => absurd hbusy hst) (by rw [State.polled,he])
  · exact polled_freed_of_given_up hc (fun _ => hcomp) (by rw [State.polled,he])
  · -- the exit that leaves something to wait for returns 0 as well
    constructor
    · intro h
      have hreq := h.request
      rw [State.polled,he] at hreq
      contradiction
    · intro h
      exact absurd (h.configured hc hst) hcomp

theorem call_poll {f : Freeing} (h : f.pc = .poll) :
    f.call = some { f with sys := f.sys.polled, pc := .left } := by
  simp only [Freeing.call,h,deviceTerminateAll_returns,if_true]
  rfl

theorem call_test {f : Freeing} (h : f.pc = .test) :
    f.call = some { f with pc := if f.jiffies < f.timeout then .poll else .left } := by
  simp only [Freeing.call,h]

theorem step_finish_none (chip : Chip) {s : State} (h : s.hw.outstanding = []) (irq : Irq) :
    step chip s (.finish irq) = none := by
  have hr : s.hw.running = [] := (List.append_eq_nil_iff.mp h).2
  simp only [step,hr]

theorem step_interrupt_none (chip : Chip) {s : State} (h : s.hw.outstanding = []) :
    step chip s .interrupt = none := by
  have hp : s.hw.pending = [] := List.map_eq_nil_iff.mp (List.append_eq_nil_iff.mp h).1
  simp only [step,hp]

/-- A call on a channel at rest: nothing happens until the poll, which frees it. -/
inductive Freeing.Sound (f : Freeing) : Prop
  | test (hpc : f.pc = .test) (h : f.sys.AtRest)
  | poll (hpc : f.pc = .poll) (h : f.sys.AtRest)
  | late (hpc : f.pc = .left) (hlate : f.timeout ≤ f.jiffies) (h : f.sys.hw.outstanding = [])
  | freed (hpc : f.pc = .left) (h : f.sys.Freed)

theorem Freeing.Sound.hardware {f : Freeing} (h : f.Sound) : f.sys.hw.outstanding = [] := by
  cases h with
  | test _ h => exact h.hardware
  | poll _ h => exact h.hardware
  | late _ _ h => exact h
  | freed _ h => exact h.hardware

theorem freeStep_sound {chip : Chip} {f g : Freeing} {l : FreeLabel} (h : f.Sound)
    (he : freeStep chip f l = some g) : g.Sound := by
  cases l with
  | tick =>
    cases he
    cases h with
    | test hpc h => exact .test hpc h
    | poll hpc h => exact .poll hpc h
    | late hpc hlate h => exact .late hpc (Nat.le_succ_of_le hlate) h
    | freed hpc h => exact .freed hpc h
  | finish irq =>
    simp only [freeStep,step_finish_none chip h.hardware,Option.map_none] at he
    contradiction
  | interrupt =>
    simp only [freeStep,step_interrupt_none chip h.hardware,Option.map_none] at he
    contradiction
  | call =>
    cases h with
    | test hpc h =>
      rw [freeStep,call_test hpc] at he
      cases he
      by_cases hlt : f.jiffies < f.timeout
      · exact .poll (if_pos hlt) h
      · exact .late (if_neg hlt) (Nat.le_of_not_lt hlt) h.hardware
    | poll hpc h =>
      rw [freeStep,call_poll hpc] at he
      cases he
      exact .freed rfl ((polled_freed_iff f.sys).mpr h)
    | late hpc _ _ =>
      simp only [freeStep,Freeing.call,hpc] at he
      contradiction
    | freed hpc _ =>
      simp only [freeStep,Freeing.call,hpc] at he
      contradiction

/-- The call that neither a tick nor an interrupt disturbs. -/
theorem runs_undisturbed (chip : Chip) (s : State) (jiffies : ℕ) {wait : ℕ} (hwait : 0 < wait) :
    Runs (freeStep chip) free (Freeing.enter s jiffies wait) [.call,.call]
      ⟨s.polled,jiffies,jiffies + wait,.left⟩ := by
  have htest : freeStep chip (Freeing.enter s jiffies wait) .call =
      some ⟨s,jiffies,jiffies + wait,.poll⟩ := by
    simp [freeStep,Freeing.call,Freeing.enter,hwait]
  have hpoll : freeStep chip ⟨s,jiffies,jiffies + wait,.poll⟩ .call =
      some ⟨s.polled,jiffies,jiffies + wait,.left⟩ :=
    call_poll (f := ⟨s,jiffies,jiffies + wait,.poll⟩) rfl
  exact .step trivial htest (.single trivial hpoll)

/-- The call waits for nothing: it frees the channel in time, in every order of ticks and
interrupts, exactly if the channel is at rest when it begins. -/
theorem freesInTime_iff (chip : Chip) (s : State) (jiffies : ℕ) {wait : ℕ} (hwait : 0 < wait) :
    FreesInTime chip s jiffies wait ↔ s.AtRest := by
  constructor
  · intro h
    have hfreed := h _ _ (runs_undisturbed chip s jiffies hwait) rfl (Nat.lt_add_of_pos_right hwait)
    exact (polled_freed_iff s).mp hfreed
  · intro h ls f hr hpc hlt
    have hsound : f.Sound := hr.invariant (I := Freeing.Sound)
      (fun _ _ _ hs _ he => freeStep_sound hs he) (.test rfl h)
    cases hsound with
    | test hpc' _ => exact absurd (hpc.symm.trans hpc') (by decide)
    | poll hpc' _ => exact absurd (hpc.symm.trans hpc') (by decide)
    | late _ hlate _ => exact absurd hlt (Nat.not_lt.mpr hlate)
    | freed _ hfreed => exact hfreed

/-- A channel that was resumed with nothing left to start. -/
def resumedRun : List Op :=
  [.config ⟨0,0⟩,.prep fourBytes,.submit 0,.issuePending,.pause,.finish .done,.interrupt,.resume]

/-- It is busy, and freed by the status of the hardware. -/
theorem resumedChannel_freed : ∃ s,
    Runs (step plainChip) free (State.init 0 .write 4) resumedRun s ∧ s.chan.status = .busy ∧
    s.hw.chStatus = .complete ∧ FreesInTime plainChip s 0 5000 :=
  ⟨_,runs_of_exec (guarded_free _ _) rfl,rfl,rfl,(freesInTime_iff plainChip _ 0 (by decide)).mpr
    ⟨rfl,rfl,fun _ _ => rfl,fun hc => absurd hc (by decide)⟩⟩

/-- A channel whose only chunk is still running. -/
def busyRun : List Op := [.config ⟨0,0⟩,.prep fourBytes,.submit 0,.issuePending]

/-- The call gives up the channel while its chunk runs: it is left busy and cannot be allocated
again, long before the deadline. -/
theorem busyChannel_not_freed : ∃ s f,
    Runs (step plainChip) free (State.init 0 .write 1) busyRun s ∧
    Runs (freeStep plainChip) free (Freeing.enter s 0 5000) [.call,.call] f ∧
    f.pc = .left ∧ f.jiffies < f.timeout ∧ f.sys.chan.status = .busy ∧
    allocChanResources f.sys.chan = -EBUSY ∧ f.sys.hw.outstanding ≠ [] ∧ ¬ f.sys.Freed ∧
    ¬ FreesInTime plainChip s 0 5000 := by
  refine ⟨_,_,runs_of_exec (guarded_free _ _) rfl,runs_of_exec (guarded_free _ _) rfl,rfl,by decide,
    rfl,rfl,by decide,?_,?_⟩
  · intro h
    exact absurd h.idle (by decide)
  · intro h
    have hfreed := h _ _ (runs_of_exec (guarded_free _ [.call,.call]) rfl) rfl (by decide)
    exact absurd hfreed.idle (by decide)

end AkidaEdma.DwEdma
