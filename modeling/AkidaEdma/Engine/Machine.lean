import AkidaEdma.Engine.Bus
import AkidaEdma.Engine.InOrder
import AkidaEdma.Engine.Pointer
import AkidaEdma.Engine.Succession

/-! # The engine as a whole

All channels of an engine together with its registers and the memories. A start writes the list
of its chunk and programs the channel; the engine takes one element after the other from where
the LLP registers of a channel point, as long as their cycle bit is the cycle state of the
channel. It ends a chunk at the link, and at an element that is not its own. When it moves on is
its own affair, so that the elements of several channels interleave in any way.
-/
namespace AkidaEdma.Execution
open Transition Trace AkidaEdma.DwEdma AkidaEdma.Registers

/-- A channel by its direction and number. -/
abbrev Ch := Dir × Fin 8

/-- What probe finds out about the engine; `force32` is the option of the build. -/
structure Setup where
  mf : Mf
  chip : Chip
  force32 : Bool
  aperture : Aperture
  llMax : Ch → ℕ

structure Machine where
  chan : Ch → State
  regs : RegFile
  bus : Bus
  moved : List (Ch × Burst)

def Machine.init (su : Setup) (regs : RegFile) (bus : Bus) : Machine where
  chan c := State.init c.2 c.1 (su.llMax c)
  regs := regs
  bus := bus
  moved := []

/-- `dw_edma_core_start`: the list, then the registers with the doorbell. -/
def Machine.start (su : Setup) (c : Ch) (s : Machine) (x : Started) : Machine :=
  { s with
    bus := { s.bus with
      near := su.aperture.through (su.mf.core.writeChunk su.force32 su.chip x.chunk) s.bus.near }
    regs := coreStart su.mf su.chip.isLocal c.1 c.2 x.chunk.llRegion.paddr x.first s.regs }

/-- The new state of a channel. -/
def Machine.put (c : Ch) (t : State) (s : Machine) : Machine :=
  { s with chan := Function.update s.chan c t }

/-- An operation of the driver on a channel, with the start that it makes, or an abort. -/
def Machine.operate (su : Setup) (c : Ch) (op : Op) (s : Machine) : Option Machine :=
  if op = .finish .done then none
  else (step su.chip (s.chan c) op).map fun t =>
    ((opStart (s.chan c) op).elim s (s.start su c)).put c t

def Machine.llp (su : Setup) (c : Ch) (s : Machine) : ℕ := Registers.llp su.mf c.1 c.2 s.regs

def Machine.cycle (su : Setup) (c : Ch) (s : Machine) : Bool := cycleState su.mf c.1 c.2 s.regs

/-- The engine stands at the link of a list. -/
def Machine.atLink (su : Setup) (c : Ch) (s : Machine) : Bool :=
  (loadControl (s.llp su c) s.bus.near).getLsbD 2

/-- The cycle bit of the element is the cycle state of the channel. -/
def Machine.owns (su : Setup) (c : Ch) (s : Machine) : Bool :=
  (loadControl (s.llp su c) s.bus.near).getLsbD 0 == s.cycle su c

/-- The engine takes an element and moves its burst. -/
def Machine.element (su : Setup) (c : Ch) (s : Machine) : Option Machine :=
  if (s.chan c).hw.running = [] ∨ s.atLink su c = true ∨ s.owns su c = false then none
  else
    let b := (loadElement (s.llp su c) s.bus.near).burst
    some { s with
      bus := s.bus.move c.1 b
      regs := setLlp su.mf c.1 c.2 (s.llp su c + 24) s.regs
      moved := s.moved ++ [(c,b)] }

/-- The registers when the link is followed, whatever its own cycle bit is: it carries that of
the list to come. -/
def Machine.follow (su : Setup) (c : Ch) (s : Machine) : RegFile :=
  let l := loadLink (s.llp su c) s.bus.near
  let regs := setLlp su.mf c.1 c.2 l.pointer s.regs
  if l.control.getLsbD 1 then toggleCycle su.mf c.1 c.2 regs else regs

/-- The engine stops and raises the done interrupt: at the link, which it follows, or at an
element of the other cycle, which it leaves alone. -/
def Machine.halt (su : Setup) (c : Ch) (s : Machine) : Option Machine :=
  if s.atLink su c = true ∨ s.owns su c = false then
    (step su.chip (s.chan c) (.finish .done)).map fun t =>
      { s.put c t with regs := if s.atLink su c = true then s.follow su c else s.regs }
  else none

inductive Move
  | op (c : Ch) (op : Op)
  | element (c : Ch)
  | halt (c : Ch)
  deriving DecidableEq, Repr

def Machine.step (su : Setup) (s : Machine) : Move → Option Machine
  | .op c op => s.operate su c op
  | .element c => s.element su c
  | .halt c => s.halt su c

@[simp] theorem put_same (c : Ch) (t : State) (s : Machine) : (s.put c t).chan c = t := by
  simp [Machine.put]

theorem put_other {c c' : Ch} (h : c' ≠ c) (t : State) (s : Machine) :
    (s.put c t).chan c' = s.chan c' := by
  simp [Machine.put,h]

@[simp] theorem put_regs (c : Ch) (t : State) (s : Machine) : (s.put c t).regs = s.regs := rfl
@[simp] theorem put_bus (c : Ch) (t : State) (s : Machine) : (s.put c t).bus = s.bus := rfl
@[simp] theorem put_moved (c : Ch) (t : State) (s : Machine) : (s.put c t).moved = s.moved := rfl

/-- The bursts that a channel moved. -/
def Machine.movedBy (c : Ch) (s : Machine) : List Burst :=
  s.moved.filterMap fun m => if m.1 = c then some m.2 else none

/-! ## The places of the lists -/

def Setup.region (su : Setup) (c : Ch) : Region :=
  if c.1 = .write then su.chip.llRegionWr c.2 else su.chip.llRegionRd c.2

def Setup.area (su : Setup) (c : Ch) : Set ℕ :=
  Set.Ico (su.region c).paddr ((su.region c).paddr + (su.region c).sz)

/-- The bytes of all lists. -/
def Setup.lists (su : Setup) (S : Set Ch) : Set ℕ := {x | ∃ c ∈ S, x ∈ su.area c}

/-- The regions of the channels `S` as the chip lays them out, with the `ll_max` of
`dw_edma_channel_setup`. -/
structure Setup.Laid (su : Setup) (S : Set Ch) : Prop where
  reached : ∀ c ∈ S, (su.region c).Reached su.aperture
  room : ∀ c ∈ S, 24 * (su.llMax c + 1) ≤ (su.region c).sz
  some : ∀ c ∈ S, 1 ≤ su.llMax c
  below : ∀ c ∈ S, (su.region c).paddr + (su.region c).sz ≤ 18446744073709551616
  apart : ∀ c ∈ S, ∀ c' ∈ S, c ≠ c' → Disjoint (su.area c) (su.area c')

/-- The condition of `agreed_iff`: whenever a start programs the cycle state, it is with a chunk
whose elements have the cycle bit 1. -/
def Cycled (mf : Mf) (d : Desc) : Prop :=
  (mf = .hdmaNative → d.chunk.length = 1) ∧
  (mf ≠ .hdmaNative → ∀ k, k < d.chunk.length → k % 2 = 1 → u32 (totalSz (d.chunk.take k)) ≠ 0)

instance (mf : Mf) (d : Desc) : Decidable (Cycled mf d) := inferInstanceAs (Decidable (_ ∧ _))

theorem cycled_single {d : Desc} {k : Chunk} (h : d.chunk = [k]) (mf : Mf) : Cycled mf d := by
  refine ⟨fun _ => by rw [h]; rfl,fun _ j hj hodd => ?_⟩
  rw [h,List.length_singleton] at hj
  omega

/-- The operations of runs without termination and aborts, on channels that exist. The chunks of
a request agree with the cycle state, and no request asks for the bytes of the lists. -/
def Allowed (su : Setup) (S : Set Ch) (s : Machine) : Move → Prop
  | .op c op => c ∈ S ∧ Undisturbed (s.chan c) op ∧ ∀ x d, op = .prep x →
      deviceTransfer su.chip (s.chan c).chan (s.chan c).nextVd x = some d →
        Cycled su.mf d ∧ ∀ b ∈ bursts d.chunk, b.Typed ∧ Disjoint (b.near c.1) (su.lists S)
  | .element c => c ∈ S
  | .halt c => c ∈ S

/-! ## What an operation leaves alone -/

theorem step_running {chip : Chip} {s t : State} {op : Op} (h : DwEdma.step chip s op = some t)
    (hop : ∀ irq, op ≠ .finish irq) :
    t.hw.running = s.hw.running ++ (opStart s op).toList := by
  cases op with
  | config c => cases h; exact (List.append_nil _).symm
  | prep x =>
    cases h
    rcases prep_cases chip x s with he | ⟨d,_,he⟩ <;> rw [he] <;> exact (List.append_nil _).symm
  | submit vd =>
    obtain ⟨d,_,_,rfl⟩ := step_submit_some h
    exact (List.append_nil _).symm
  | issuePending =>
    cases h
    unfold State.issuePending
    split
    · exact call_running _ _
    · rename_i hc
      simp [opStart,deviceIssuePending,hc]
  | pause => cases h; exact (List.append_nil _).symm
  | resume => cases h; exact call_running _ _
  | terminateAll st => cases h; exact (List.append_nil _).symm
  | finish irq => exact absurd rfl (hop irq)
  | interrupt =>
    obtain ⟨x,irq,rest,hp,rfl⟩ := step_interrupt_some h
    cases irq <;> simp [State.interrupt,opStart,hp]

/-- The constants of a channel. -/
def SameSetup (c c' : Chan) : Prop := c'.id = c.id ∧ c'.dir = c.dir ∧ c'.llMax = c.llMax

theorem startTransfer_setup (c : Chan) : SameSetup c (startTransfer c).1 := by
  rcases startTransfer_cases c with ⟨he,_⟩ | ⟨d,rest,k,ks,_,_,he⟩ <;> rw [he] <;>
    exact ⟨rfl,rfl,rfl⟩

theorem doneInterrupt_setup (c : Chan) : SameSetup c (doneInterrupt c).1 := by
  cases hi : c.descIssued with
  | nil => rw [doneInterrupt_nil hi]; exact ⟨rfl,rfl,rfl⟩
  | cons d rest =>
    rcases doneInterrupt_cons hi with ⟨_,he⟩ | ⟨_,he⟩ | ⟨_,he⟩ <;> rw [he]
    · unfold continueTransfer
      split
      · exact startTransfer_setup (vchanCookieComplete d rest c)
      · exact startTransfer_setup c
    · exact ⟨rfl,rfl,rfl⟩
    · exact ⟨rfl,rfl,rfl⟩

theorem step_setup {chip : Chip} {s t : State} {op : Op} (h : DwEdma.step chip s op = some t) :
    SameSetup s.chan t.chan := by
  cases op with
  | config c => cases h; exact ⟨rfl,rfl,rfl⟩
  | prep x =>
    cases h
    rcases prep_cases chip x s with he | ⟨d,_,he⟩ <;> rw [he] <;> exact ⟨rfl,rfl,rfl⟩
  | submit vd =>
    obtain ⟨d,_,_,rfl⟩ := step_submit_some h
    exact ⟨rfl,rfl,rfl⟩
  | issuePending =>
    cases h
    unfold State.issuePending
    split
    · rcases deviceIssuePending_cases s.chan with ⟨_,he⟩ | ⟨_,_,he⟩ | ⟨_,_,_,_,he⟩ <;>
        rw [he] <;> try exact ⟨rfl,rfl,rfl⟩
      exact startTransfer_setup { vchanIssuePending s.chan with status := .busy }
    · exact ⟨rfl,rfl,rfl⟩
  | pause =>
    cases h
    rcases devicePause_cases s.chan with he | ⟨_,_,_,he⟩ <;> rw [he] <;> exact ⟨rfl,rfl,rfl⟩
  | resume =>
    cases h
    unfold State.resume
    rcases deviceResume_cases s.chan with he | ⟨_,_,_,he⟩ <;> rw [he]
    · exact ⟨rfl,rfl,rfl⟩
    · exact startTransfer_setup { s.chan with status := .busy }
  | terminateAll st =>
    cases h
    rcases deviceTerminateAll_cases st s.chan with ⟨_,he⟩ | ⟨_,_,he⟩ | ⟨_,_,_,he⟩ | ⟨_,_,_,he⟩ <;>
      rw [he] <;> exact ⟨rfl,rfl,rfl⟩
  | finish irq =>
    obtain ⟨x,rest,_,rfl⟩ := step_finish_some h
    exact ⟨rfl,rfl,rfl⟩
  | interrupt =>
    obtain ⟨x,irq,rest,_,rfl⟩ := step_interrupt_some h
    cases irq with
    | done => exact doneInterrupt_setup s.chan
    | abort =>
      cases hi : s.chan.descIssued with
      | nil => simp only [State.interrupt,abortInterrupt_nil hi]; exact ⟨rfl,rfl,rfl⟩
      | cons d rest => simp only [State.interrupt,abortInterrupt_cons hi]; exact ⟨rfl,rfl,rfl⟩

end AkidaEdma.Execution
