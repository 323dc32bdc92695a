import AkidaEdma.Engine.Transfer
import AkidaEdma.Library.Transition

/-! # A channel together with its hardware

The hardware works through the chunks whose doorbell was rung, in that order. Each of
them ends by raising one done or one abort interrupt, which is handled at any later
time. The log records the calls that cross the boundary of the channel code; nothing
in the code reads it.
-/
namespace AkidaEdma.DwEdma

inductive Irq | done | abort
  deriving DecidableEq, Repr

/-- The hardware side of a channel: the chunks at work, the ended ones whose interrupt
was not handled yet, and how the last one ended. -/
structure Hw where
  running : List Started
  pending : List (Started × Irq)
  last : Option Irq
  deriving DecidableEq, Repr

/-- Doorbell rung, interrupt not handled. -/
def Hw.outstanding (hw : Hw) : List Started := hw.pending.map Prod.fst ++ hw.running

/-- The status the core reads back: running, stopped after a done, or else an error
(halted by an abort, or never started). -/
def Hw.chStatus (hw : Hw) : DmaStatus :=
  if hw.running ≠ [] then .inProgress else if hw.last = some .done then .complete else .error

inductive Event
  | prep (d : Desc)
  | submit (d : Desc)
  | issue (ds : List Desc)
  | coreStart (x : Started)
  | doneInt (x : Started)
  | abortInt (x : Started)
  | complete (d : Desc)
  deriving DecidableEq, Repr

/-- `prepared` holds what prep calls returned and nobody submitted yet. -/
structure State where
  chan : Chan
  hw : Hw
  prepared : List Desc
  nextVd : ℕ
  log : List Event
  deriving DecidableEq, Repr

/-- The state after channel setup (`dw_edma_channel_setup`). -/
def State.init (id : ℕ) (dir : Dir) (llMax : ℕ) : State where
  chan := ⟨id,dir,llMax,.none,.idle,false,⟨0,0⟩,[],[],[]⟩
  hw := ⟨[],[],none⟩
  prepared := []
  nextVd := 0
  log := []

/-- The effect of a channel operation with its calls: the completed descriptors first,
then the chunk handed to `dw_edma_core_start`, whose doorbell is rung. -/
def State.call (s : State) (r : Chan × Option Started) : State :=
  { s with
    chan := r.1
    hw := { s.hw with running := s.hw.running ++ r.2.toList }
    log := s.log ++ (r.1.descCompleted.drop s.chan.descCompleted.length).map .complete ++
      r.2.toList.map .coreStart }

def State.record (s : State) (e : Event) : State := { s with log := s.log ++ [e] }

/-- A prep call; nothing happens when it returns `NULL`. -/
def State.prep (chip : Chip) (x : Transfer) (s : State) : State :=
  match deviceTransfer chip s.chan s.nextVd x with
  | none => s
  | some d => { s with prepared := s.prepared ++ [d], nextVd := s.nextVd + 1 }.record (.prep d)

def State.submit (d : Desc) (s : State) : State :=
  { s with chan := txSubmit d s.chan, prepared := s.prepared.erase d }.record (.submit d)

def State.issuePending (s : State) : State :=
  if s.chan.configured then
    (s.record (.issue s.chan.descSubmitted)).call (deviceIssuePending s.chan)
  else s

def State.resume (s : State) : State := s.call (deviceResume s.chan).1

/-- The handler of the oldest interrupt. -/
def State.interrupt (s : State) (x : Started) (irq : Irq) (rest : List (Started × Irq)) : State :=
  let s := { s with hw := { s.hw with pending := rest } }
  match irq with
  | .done => (s.record (.doneInt x)).call (doneInterrupt s.chan)
  | .abort => (s.record (.abortInt x)).call (abortInterrupt s.chan,none)

/-- The operations of the driver on a channel, and the two moves of its hardware: a
chunk ends, and an interrupt is handled. -/
inductive Op
  | config (c : SlaveConfig)
  | prep (x : Transfer)
  | submit (vd : ℕ)
  | issuePending
  | pause
  | resume
  | terminateAll (st : DmaStatus)
  | finish (irq : Irq)
  | interrupt
  deriving DecidableEq, Repr

def step (chip : Chip) (s : State) : Op → Option State
  | .config c => some { s with chan := deviceConfig c s.chan }
  | .prep x => some (s.prep chip x)
  | .submit vd => (s.prepared.find? (fun d => d.vd == vd)).map (fun d => s.submit d)
  | .issuePending => some s.issuePending
  | .pause => some { s with chan := (devicePause s.chan).1 }
  | .resume => some s.resume
  | .terminateAll st => some { s with chan := (deviceTerminateAll st s.chan).1 }
  | .finish irq =>
    match s.hw.running with
    | [] => none
    | x :: rest => some { s with
        hw := { running := rest, pending := s.hw.pending ++ [(x,irq)], last := some irq } }
  | .interrupt =>
    match s.hw.pending with
    | [] => none
    | (x,irq) :: rest => some (s.interrupt x irq rest)

@[simp] theorem outstanding_finish (x : Started) (rest : List Started)
    (pending : List (Started × Irq)) (irq : Irq) (last : Option Irq) :
    (Hw.mk rest (pending ++ [(x,irq)]) last).outstanding = pending.map Prod.fst ++ x :: rest := by
  simp [Hw.outstanding]

@[simp] theorem call_chan (s : State) (r : Chan × Option Started) : (s.call r).chan = r.1 := rfl
@[simp] theorem call_nextVd (s : State) (r : Chan × Option Started) :
    (s.call r).nextVd = s.nextVd := rfl
@[simp] theorem call_prepared (s : State) (r : Chan × Option Started) :
    (s.call r).prepared = s.prepared := rfl
@[simp] theorem call_pending (s : State) (r : Chan × Option Started) :
    (s.call r).hw.pending = s.hw.pending := rfl
@[simp] theorem call_running (s : State) (r : Chan × Option Started) :
    (s.call r).hw.running = s.hw.running ++ r.2.toList := rfl
@[simp] theorem call_last (s : State) (r : Chan × Option Started) :
    (s.call r).hw.last = s.hw.last := rfl

@[simp] theorem call_outstanding (s : State) (r : Chan × Option Started) :
    (s.call r).hw.outstanding = s.hw.outstanding ++ r.2.toList := by
  simp [Hw.outstanding]

/-- An operation that completes nothing records only the chunk it starts. -/
theorem call_log {s : State} {r : Chan × Option Started}
    (h : r.1.descCompleted = s.chan.descCompleted) :
    (s.call r).log = s.log ++ r.2.toList.map .coreStart := by
  simp [State.call,h]

@[simp] theorem record_chan (s : State) (e : Event) : (s.record e).chan = s.chan := rfl
@[simp] theorem record_hw (s : State) (e : Event) : (s.record e).hw = s.hw := rfl
@[simp] theorem record_nextVd (s : State) (e : Event) : (s.record e).nextVd = s.nextVd := rfl
@[simp] theorem record_prepared (s : State) (e : Event) :
    (s.record e).prepared = s.prepared := rfl
@[simp] theorem record_log (s : State) (e : Event) : (s.record e).log = s.log ++ [e] := rfl

@[simp] theorem submit_chan (d : Desc) (s : State) : (s.submit d).chan = txSubmit d s.chan := rfl
@[simp] theorem submit_hw (d : Desc) (s : State) : (s.submit d).hw = s.hw := rfl
@[simp] theorem submit_log (d : Desc) (s : State) : (s.submit d).log = s.log ++ [.submit d] := rfl
@[simp] theorem submit_nextVd (d : Desc) (s : State) : (s.submit d).nextVd = s.nextVd := rfl

theorem prep_cases (chip : Chip) (x : Transfer) (s : State) :
    s.prep chip x = s ∨ ∃ d, deviceTransfer chip s.chan s.nextVd x = some d ∧ s.prep chip x =
      { s with prepared := s.prepared ++ [d], nextVd := s.nextVd + 1 }.record (.prep d) := by
  unfold State.prep
  cases h : deviceTransfer chip s.chan s.nextVd x with
  | none => exact Or.inl rfl
  | some d => exact Or.inr ⟨d,rfl,rfl⟩

theorem step_submit_some {chip : Chip} {s t : State} {vd : ℕ}
    (h : step chip s (.submit vd) = some t) : ∃ d ∈ s.prepared, d.vd = vd ∧ t = s.submit d := by
  obtain ⟨d,hd,rfl⟩ := Option.map_eq_some_iff.mp h
  exact ⟨d,List.mem_of_find?_eq_some hd,by simpa using List.find?_some hd,rfl⟩

theorem step_finish_some {chip : Chip} {s t : State} {irq : Irq}
    (h : step chip s (.finish irq) = some t) : ∃ x rest, s.hw.running = x :: rest ∧
      t = { s with hw := ⟨rest,s.hw.pending ++ [(x,irq)],some irq⟩ } := by
  simp only [step] at h
  split at h
  · contradiction
  · rename_i x rest hr
    exact ⟨x,rest,hr,(Option.some.inj h).symm⟩

theorem step_interrupt_some {chip : Chip} {s t : State} (h : step chip s .interrupt = some t) :
    ∃ x irq rest, s.hw.pending = (x,irq) :: rest ∧ t = s.interrupt x irq rest := by
  simp only [step] at h
  split at h
  · contradiction
  · rename_i x irq rest hp
    exact ⟨x,irq,rest,hp,(Option.some.inj h).symm⟩

theorem step_finish_of (chip : Chip) {s : State} {x : Started} {rest : List Started} (irq : Irq)
    (h : s.hw.running = x :: rest) : step chip s (.finish irq) =
      some { s with hw := ⟨rest,s.hw.pending ++ [(x,irq)],some irq⟩ } := by simp only [step,h]

theorem step_interrupt_of (chip : Chip) {s : State} {x : Started} {irq : Irq}
    {rest : List (Started × Irq)} (h : s.hw.pending = (x,irq) :: rest) :
    step chip s .interrupt = some (s.interrupt x irq rest) := by simp only [step,h]

/-- The chunks handed to `dw_edma_core_start`, in order. -/
def starts (log : List Event) : List Started :=
  log.filterMap fun | .coreStart x => some x | _ => none

/-- The chunks whose done interrupt was handled. -/
def dones (log : List Event) : List Started :=
  log.filterMap fun | .doneInt x => some x | _ => none

/-- The descriptors moved to `desc_issued`, as they were then. -/
def issues (log : List Event) : List Desc :=
  log.flatMap fun | .issue ds => ds | _ => []

/-- The descriptors moved to `desc_completed`. -/
def completions (log : List Event) : List ℕ :=
  log.filterMap fun | .complete d => some d.vd | _ => none

def State.starts (s : State) : List Started := DwEdma.starts s.log

/-- The chunk that an operation hands to `dw_edma_core_start`. -/
def opStart (s : State) : Op → Option Started
  | .issuePending => (deviceIssuePending s.chan).2
  | .resume => (deviceResume s.chan).1.2
  | .interrupt =>
    match s.hw.pending with
    | (_,.done) :: _ => (doneInterrupt s.chan).2
    | _ => none
  | _ => none

@[simp] theorem starts_call (s : State) (r : Chan × Option Started) :
    (s.call r).starts = s.starts ++ r.2.toList := by
  have hnone : ∀ ds : List Desc, DwEdma.starts (ds.map Event.complete) = [] := by
    intro ds
    rw [DwEdma.starts,List.filterMap_eq_nil_iff]
    intro e he
    obtain ⟨d,_,rfl⟩ := List.mem_map.mp he
    rfl
  have hsome : ∀ o : Option Started, DwEdma.starts (o.toList.map Event.coreStart) = o.toList := by
    intro o
    cases o <;> rfl
  have happ : (s.call r).starts = s.starts ++ DwEdma.starts
      ((r.1.descCompleted.drop s.chan.descCompleted.length).map .complete) ++
        DwEdma.starts (r.2.toList.map .coreStart) := by
    simp only [State.starts,DwEdma.starts,State.call,List.filterMap_append]
  rw [happ,hnone,hsome,List.append_nil]

theorem starts_record {s : State} {e : Event} (h : ∀ x, e ≠ .coreStart x) :
    (s.record e).starts = s.starts := by
  cases e with
  | coreStart x => exact absurd rfl (h x)
  | _ => simp [State.starts,DwEdma.starts,State.record]

/-- A remote engine without address translation, and a request for four bytes to the
host, for concrete runs. -/
def plainChip : Chip := ⟨false,fun _ => ⟨0,0,0⟩,fun _ => ⟨0,0,0⟩,none⟩

def fourBytes : Transfer := ⟨.devToMem,.scatterGather [⟨4096,4⟩] 1⟩

/-- The log only grows. -/
theorem step_log_prefix {chip : Chip} {s t : State} {op : Op} (h : step chip s op = some t) :
    s.log <+: t.log := by
  cases op with
  | config c => cases h; exact List.prefix_rfl
  | prep x =>
    cases h
    rcases prep_cases chip x s with he | ⟨d,_,he⟩
    · exact he.symm ▸ List.prefix_rfl
    · exact he.symm ▸ List.prefix_append _ _
  | submit vd =>
    obtain ⟨d,_,_,rfl⟩ := step_submit_some h
    exact List.prefix_append _ _
  | issuePending =>
    cases h
    unfold State.issuePending
    split
    · simp [State.call,List.append_assoc]
    · exact List.prefix_rfl
  | pause => cases h; exact List.prefix_rfl
  | resume => cases h; simp [State.resume,State.call,List.append_assoc]
  | terminateAll st => cases h; exact List.prefix_rfl
  | finish irq =>
    obtain ⟨x,rest,_,rfl⟩ := step_finish_some h
    exact List.prefix_rfl
  | interrupt =>
    obtain ⟨x,irq,rest,_,rfl⟩ := step_interrupt_some h
    cases irq <;> simp [State.interrupt,State.call,List.append_assoc]

/-- What an operation adds to the started chunks. -/
theorem step_starts {chip : Chip} {s t : State} {op : Op} (h : step chip s op = some t) :
    t.starts = s.starts ++ (opStart s op).toList := by
  cases op with
  | config c => cases h; exact (List.append_nil _).symm
  | prep x =>
    cases h
    rcases prep_cases chip x s with he | ⟨d,_,he⟩ <;> rw [he]
    · exact (List.append_nil _).symm
    · rw [starts_record (by simp)]
      exact (List.append_nil _).symm
  | submit vd =>
    obtain ⟨d,_,_,rfl⟩ := step_submit_some h
    rw [State.submit,starts_record (by simp)]
    exact (List.append_nil _).symm
  | issuePending =>
    cases h
    unfold State.issuePending
    split
    · rw [starts_call,starts_record (by simp)]
      rfl
    · rename_i hc
      simp [opStart,deviceIssuePending,hc]
  | pause => cases h; exact (List.append_nil _).symm
  | resume => cases h; exact starts_call _ _
  | terminateAll st => cases h; exact (List.append_nil _).symm
  | finish irq =>
    obtain ⟨x,rest,_,rfl⟩ := step_finish_some h
    exact (List.append_nil _).symm
  | interrupt =>
    obtain ⟨x,irq,rest,hp,rfl⟩ := step_interrupt_some h
    cases irq <;> simp only [State.interrupt,opStart,hp] <;>
      rw [starts_call,starts_record (by simp)] <;> rfl

/-- What an operation does to the outstanding chunks: an interrupt takes the oldest one
away, and a started chunk joins at the end. -/
theorem step_outstanding {chip : Chip} {s t : State} {op : Op} (h : step chip s op = some t) :
    t.hw.outstanding = (if op = .interrupt then s.hw.outstanding.tail else s.hw.outstanding) ++
      (opStart s op).toList := by
  cases op with
  | config c => cases h; exact (List.append_nil _).symm
  | prep x =>
    cases h
    rcases prep_cases chip x s with he | ⟨d,_,he⟩ <;> rw [he] <;> exact (List.append_nil _).symm
  | submit vd =>
    obtain ⟨d,_,_,rfl⟩ := step_submit_some h
    exact (List.append_nil _).symm
  | issuePending =>
    cases h
    unfold State.issuePending
    split
    · exact call_outstanding _ _
    · rename_i hc
      simp [opStart,deviceIssuePending,hc]
  | pause => cases h; exact (List.append_nil _).symm
  | resume => cases h; exact call_outstanding _ _
  | terminateAll st => cases h; exact (List.append_nil _).symm
  | finish irq =>
    obtain ⟨x,rest,hr,rfl⟩ := step_finish_some h
    simp [Hw.outstanding,hr,opStart]
  | interrupt =>
    obtain ⟨x,irq,rest,hp,rfl⟩ := step_interrupt_some h
    cases irq <;> simp [State.interrupt,opStart,hp,Hw.outstanding]

open Transition in
theorem runs_starts_prefix {chip : Chip} {guard : State → Op → Prop} {s t : State}
    {ops : List Op} (hr : Runs (step chip) guard s ops t) : s.starts <+: t.starts := by
  refine hr.related (R := fun s t => s.starts <+: t.starts) (fun _ => List.prefix_rfl)
    (fun _ _ _ => List.IsPrefix.trans) ?_
  intro s op t _ he
  rw [step_starts he]
  exact List.prefix_append _ _

end AkidaEdma.DwEdma
