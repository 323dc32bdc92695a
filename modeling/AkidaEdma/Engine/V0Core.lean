import AkidaEdma.Engine.Descriptor
import AkidaEdma.Library.ReadModifyWrite
import Mathlib.Tactic.FinCases

/-! # The registers of the v0 core

`dw_edma_v0_core_start` with `first` set, as the messages it sends to the device one by
one, by any number of channels of one direction at once. The linked list of the chunk lies
in the channel's own region and is written before.
-/
namespace AkidaEdma.V0Core
open Transition AkidaEdma.DwEdma

/-- The map formats that the v0 core serves. -/
inductive MapFormat | legacy | unroll | hdmaCompat
  deriving DecidableEq, Repr

/-- The registers of `struct dw_edma_v0_ch_regs` that starting a channel writes. -/
inductive ChReg | control1 | llpLsb | llpMsb
  deriving DecidableEq, Repr

abbrev Word := BitVec 32

/-- `struct dw_edma_v0_regs` for one direction. -/
structure Regs where
  engineEn : Word
  doorbell : Word
  intMask : Word
  intClear : Word
  linkedListErrEn : Word
  viewportSel : Word
  pwrEn : Fin 8 → Word
  ch : Fin 8 → ChReg → Word

def bit (n : ℕ) : Word := 1#32 <<< n

/-- `FIELD_PREP` of a channel bit under `EDMA_V0_DONE_INT_MASK`, which is also the mask of
the linked list errors, and under `EDMA_V0_ABORT_INT_MASK`. -/
def doneBit (c : Fin 8) : Word := bit c &&& 0xff#32
def abortBit (c : Fin 8) : Word := (bit c <<< 16) &&& 0xff0000#32

/-- `dw_edma_v0_core_off`. -/
def coreOff (r : Regs) : Regs :=
  { r with
    intMask := 0xff#32 ||| 0xff0000#32
    intClear := 0xff#32 ||| 0xff0000#32
    engineEn := 0#32 }

/-- The next message of a channel. -/
inductive Pc
  | idle
  | engineEn
  | pwrEn
  | getIntMask
  | setIntMask
  | getErrEn
  | setErrEn
  | viewport (r : ChReg)
  | chan (r : ChReg)
  | readBack
  | doorbell
  deriving DecidableEq, Repr

/-- A channel that runs the start function: its local variable and the address of its
linked list. -/
structure Cpu where
  pc : Pc
  tmp : Word
  paddr : ℕ

/-- `rung` records the doorbells written since the core was switched off; `lock` is the
holder of `dw->lock`. -/
structure State where
  regs : Regs
  cpu : Fin 8 → Cpu
  lock : Option (Fin 8)
  rung : Fin 8 → Bool

structure Config where
  mf : MapFormat
  dir : Dir
  isLocal : Bool

/-- The state that `core_off` leaves. -/
def State.off (r : Regs) : State := ⟨coreOff r,fun _ => ⟨.idle,0#32,0⟩,none,fun _ => false⟩

def State.goto (s : State) (c : Fin 8) (pc : Pc) : State :=
  { s with cpu := fun d => if d = c then { s.cpu c with pc := pc } else s.cpu d }

def State.load (s : State) (c : Fin 8) (tmp : Word) : State :=
  { s with cpu := fun d => if d = c then { s.cpu c with tmp := tmp } else s.cpu d }

/-- The update of `int_mask`: done and abort of the channel unmasked. -/
def unmask (c : Fin 8) (tmp : Word) : Word := tmp &&& ~~~doneBit c &&& ~~~abortBit c

/-- The update of `linked_list_err_en`. -/
def enableErr (c : Fin 8) (tmp : Word) : Word := tmp ||| doneBit c

/-- The first message of `SET_CH_32`. -/
def setCh (cfg : Config) (r : ChReg) : Pc := if cfg.mf = .legacy then .viewport r else .chan r

def viewportSel (dir : Dir) (c : Fin 8) : Word :=
  (BitVec.ofNat 32 c &&& 0x7#32) ||| if dir = .read then bit 31 else 0#32

/-- The channel that the legacy window shows. -/
def selected (w : Word) : Fin 8 := ⟨w.toNat % 8,Nat.mod_lt _ (by decide)⟩

def chValue (paddr : ℕ) : ChReg → Word
  | .control1 => 0x100#32 ||| 0x200#32
  | .llpLsb => BitVec.ofNat 32 paddr
  | .llpMsb => BitVec.ofNat 32 (paddr / 4294967296)

def afterCh (cfg : Config) : ChReg → Pc
  | .control1 => setCh cfg .llpLsb
  | .llpLsb => setCh cfg .llpMsb
  | .llpMsb => if cfg.isLocal then .doorbell else .readBack

def Regs.setCh (r : Regs) (c : Fin 8) (reg : ChReg) (v : Word) : Regs :=
  { r with ch := fun d reg' => if d = c ∧ reg' = reg then v else r.ch d reg' }

def State.sets (s : State) (c : Fin 8) (pc : Pc) (regs : Regs) : State :=
  { s with regs := regs }.goto c pc

/-- The next message of channel `c`. Under the legacy map a channel register is reached
through a window, with `dw->lock` held from its selection to the write. -/
def State.message (cfg : Config) (s : State) (c : Fin 8) : Option State :=
  let regs := s.regs
  match (s.cpu c).pc with
  | .idle => none
  | .engineEn => some (s.sets c (if cfg.mf = .hdmaCompat then .pwrEn else .getIntMask)
      { regs with engineEn := bit 0 })
  | .pwrEn => some (s.sets c .getIntMask
      { regs with pwrEn := fun d => if d = c then bit 0 else regs.pwrEn d })
  | .getIntMask => some ((s.load c regs.intMask).goto c .setIntMask)
  | .setIntMask => some (s.sets c .getErrEn { regs with intMask := unmask c (s.cpu c).tmp })
  | .getErrEn => some ((s.load c regs.linkedListErrEn).goto c .setErrEn)
  | .setErrEn => some (s.sets c (setCh cfg .control1)
      { regs with linkedListErrEn := enableErr c (s.cpu c).tmp })
  | .viewport r =>
    if s.lock = none then
      some ({ s with lock := some c }.sets c (.chan r)
        { regs with viewportSel := viewportSel cfg.dir c })
    else none
  | .chan r =>
    let v := chValue (s.cpu c).paddr r
    if cfg.mf = .legacy then
      some ({ s with lock := none }.sets c (afterCh cfg r) (regs.setCh (selected regs.viewportSel) r v))
    else some (s.sets c (afterCh cfg r) (regs.setCh c r v))
  | .readBack => some (s.goto c .doorbell)
  | .doorbell =>
    some ({ s with rung := fun d => if d = c then true else s.rung d }.sets c .idle
      { regs with doorbell := BitVec.ofNat 32 c &&& 0x7#32 })

inductive Label
  | start (c : Fin 8) (paddr : ℕ)
  | message (c : Fin 8)

def step (cfg : Config) (s : State) : Label → Option State
  | .start c paddr =>
    if (s.cpu c).pc = .idle then
      some { s with cpu := fun d => if d = c then ⟨.engineEn,(s.cpu c).tmp,paddr⟩ else s.cpu d }
    else none
  | .message c => s.message cfg c

/-! ## The two shared registers -/

inductive Shared | intMask | errEn

def Shared.word : Shared → Regs → Word
  | .intMask, r => r.intMask
  | .errEn, r => r.linkedListErrEn

def Shared.update : Shared → Fin 8 → Word → Word
  | .intMask => unmask
  | .errEn => enableErr

def Shared.get : Shared → Pc
  | .intMask => .getIntMask
  | .errEn => .getErrEn

def Shared.set : Shared → Pc
  | .intMask => .setIntMask
  | .errEn => .setErrEn

/-- The write of the register lies behind. -/
def Shared.past : Shared → Pc → Bool
  | _, .idle => false
  | _, .engineEn => false
  | _, .pwrEn => false
  | _, .getIntMask => false
  | _, .setIntMask => false
  | .errEn, .getErrEn => false
  | .errEn, .setErrEn => false
  | _, _ => true

/-- What the property asks of a register for a channel. -/
def Shared.ok : Shared → Fin 8 → Word → Prop
  | .intMask, c, v => v.getLsbD c = false ∧ v.getLsbD (16 + c) = false
  | .errEn, c, v => v.getLsbD c = true

theorem doneBit_getLsbD : ∀ (c : Fin 8) (i : Fin 32), (doneBit c).getLsbD i = decide (i.val = c.val) := by
  decide
theorem abortBit_getLsbD : ∀ (c : Fin 8) (i : Fin 32),
    (abortBit c).getLsbD i = decide (i.val = 16 + c.val) := by
  decide

theorem unmask_getLsbD (c : Fin 8) (v : Word) {i : ℕ} (hi : i < 32) : (unmask c v).getLsbD i =
    (v.getLsbD i && !decide (i = c.val) && !decide (i = 16 + c.val)) := by
  have h1 := doneBit_getLsbD c ⟨i,hi⟩
  have h2 := abortBit_getLsbD c ⟨i,hi⟩
  simp only [unmask,BitVec.getLsbD_and,BitVec.getLsbD_not,h1,h2,hi,decide_true,Bool.true_and]

theorem enableErr_getLsbD (c : Fin 8) (v : Word) {i : ℕ} (hi : i < 32) :
    (enableErr c v).getLsbD i = (v.getLsbD i || decide (i = c.val)) := by
  have h1 := doneBit_getLsbD c ⟨i,hi⟩
  simp only [enableErr,BitVec.getLsbD_or,h1]

open ReadModifyWrite in
theorem updates_intMask : Updates unmask Shared.intMask.ok where
  establish c v := by
    constructor
    · simp [unmask_getLsbD c v (show c.val < 32 by omega)]
    · simp [unmask_getLsbD c v (show 16 + c.val < 32 by omega)]
  keep c d v h := by
    constructor
    · simp [unmask_getLsbD c v (show d.val < 32 by omega),h.1]
    · simp [unmask_getLsbD c v (show 16 + d.val < 32 by omega),h.2]
  own c d v hne h := by
    have hval : d.val ≠ c.val := fun h => hne (Fin.ext h)
    have h1 := h.1
    have h2 := h.2
    rw [unmask_getLsbD c v (show d.val < 32 by omega)] at h1
    rw [unmask_getLsbD c v (show 16 + d.val < 32 by omega)] at h2
    have ha : ¬ d.val = 16 + c.val := by omega
    have hb : ¬ 16 + d.val = c.val := by omega
    exact ⟨by simpa [hval,ha] using h1,by simpa [hb,hval] using h2⟩
  absorb c v h := by
    apply BitVec.eq_of_getLsbD_eq
    intro i hi
    rw [unmask_getLsbD c v hi]
    by_cases h1 : i = c.val
    · subst h1
      simp [h.1]
    · by_cases h2 : i = 16 + c.val
      · subst h2
        simp [h.2]
      · simp [h1,h2]

open ReadModifyWrite in
theorem updates_errEn : Updates enableErr Shared.errEn.ok where
  establish c v := by simp [Shared.ok,enableErr_getLsbD c v (show c.val < 32 by omega)]
  keep c d v h := by
    have hd : v.getLsbD d = true := h
    simp [Shared.ok,enableErr_getLsbD c v (show d.val < 32 by omega),hd]
  own c d v hne h := by
    have hval : d.val ≠ c.val := fun h => hne (Fin.ext h)
    have hd : (enableErr c v).getLsbD d = true := h
    rw [enableErr_getLsbD c v (show d.val < 32 by omega)] at hd
    simpa [Shared.ok,hval] using hd
  absorb c v h := by
    apply BitVec.eq_of_getLsbD_eq
    intro i hi
    rw [enableErr_getLsbD c v hi]
    by_cases h1 : i = c.val
    · subst h1
      have hc : v.getLsbD c = true := h
      simp [hc]
    · simp [h1]

theorem updates (x : Shared) : ReadModifyWrite.Updates x.update x.ok := by
  cases x with
  | intMask => exact updates_intMask
  | errEn => exact updates_errEn

/-- The register with the channels as its agents: what they have read and not written
back, and who has written since the core was switched off. -/
def State.view (s : State) (x : Shared) : ReadModifyWrite.State (Fin 8) Word where
  word := x.word s.regs
  held c := if (s.cpu c).pc = x.set then some (s.cpu c).tmp else none
  updated c := s.rung c || x.past (s.cpu c).pc

/-- The register still has the value that the channel read when it is written back. -/
def Unraced (s : State) : Label → Prop
  | .start _ _ => True
  | .message c => ∀ x : Shared, (s.cpu c).pc = x.set → (s.cpu c).tmp = x.word s.regs

instance (s : State) (l : Label) : Decidable (Unraced s l) :=
  match l with
  | .start _ _ => isTrue trivial
  | .message c => decidable_of_iff
      (((s.cpu c).pc = Shared.intMask.set → (s.cpu c).tmp = s.regs.intMask) ∧
        ((s.cpu c).pc = Shared.errEn.set → (s.cpu c).tmp = s.regs.linkedListErrEn))
      ⟨fun h x => by cases x <;> [exact h.1; exact h.2],fun h => ⟨h .intMask,h .errEn⟩⟩

theorem view_eq {s t : State} {x : Shared} (c : Fin 8) (hw : x.word t.regs = x.word s.regs)
    (hother : ∀ d, d ≠ c → t.cpu d = s.cpu d ∧ t.rung d = s.rung d)
    (ht : (t.cpu c).pc ≠ x.set) (hs : (s.cpu c).pc ≠ x.set)
    (hup : (t.rung c || x.past (t.cpu c).pc) = (s.rung c || x.past (s.cpu c).pc)) :
    t.view x = s.view x := by
  unfold State.view
  congr 1
  · funext d
    by_cases hd : d = c
    · rw [hd,if_neg ht,if_neg hs]
    · rw [(hother d hd).1]
  · funext d
    by_cases hd : d = c
    · rw [hd,hup]
    · rw [(hother d hd).1,(hother d hd).2]

theorem message_other {cfg : Config} {s t : State} {c : Fin 8} (he : s.message cfg c = some t) :
    ∀ d, d ≠ c → t.cpu d = s.cpu d ∧ t.rung d = s.rung d := by
  intro d hd
  unfold State.message at he
  cases hpc : (s.cpu c).pc <;> simp only [hpc] at he
  case idle => contradiction
  case viewport r =>
    split at he
    · cases he
      simp [State.sets,State.goto,hd]
    · contradiction
  case chan r =>
    split at he <;> cases he <;> simp [State.sets,State.goto,hd]
  all_goals
    cases he
    simp [State.sets,State.goto,State.load,hd]

theorem view_read {cfg : Config} {s t : State} {c : Fin 8} {x : Shared}
    (hpc : (s.cpu c).pc = x.get) (he : s.message cfg c = some t) :
    ReadModifyWrite.step x.update (s.view x) (.read c) = some (t.view x) := by
  have ht : t = (s.load c (x.word s.regs)).goto c x.set := by
    cases x <;> simp only [State.message,hpc,Shared.get] at he <;> exact (Option.some.inj he).symm
  have hpast : x.past x.set = x.past x.get := by cases x <;> rfl
  subst ht
  simp only [ReadModifyWrite.step,State.view]
  congr 2
  · funext d
    by_cases hd : d = c <;> simp [State.goto,State.load,hd]
  · funext d
    by_cases hd : d = c <;> simp [State.goto,State.load,hd,hpc,hpast]

theorem view_write {cfg : Config} {s t : State} {c : Fin 8} {x : Shared}
    (hpc : (s.cpu c).pc = x.set) (he : s.message cfg c = some t) :
    ReadModifyWrite.step x.update (s.view x) (.write c) = some (t.view x) := by
  have hother := message_other he
  have ht : x.word t.regs = x.update c (s.cpu c).tmp ∧ (t.cpu c).pc ≠ x.set ∧
      x.past (t.cpu c).pc = true := by
    cases x with
    | intMask =>
      simp only [State.message,hpc,Shared.set] at he
      cases he
      simp [State.sets,State.goto,Shared.word,Shared.update,Shared.set,Shared.past]
    | errEn =>
      simp only [State.message,hpc,Shared.set] at he
      cases he
      unfold setCh
      split <;> simp [State.sets,State.goto,Shared.word,Shared.update,Shared.set,Shared.past]
  obtain ⟨hw,hne,hpast⟩ := ht
  simp only [ReadModifyWrite.step,State.view,hpc,if_true,Option.map_some,hw]
  congr 2
  · funext d
    by_cases hd : d = c
    · rw [if_pos hd,hd,if_neg hne]
    · rw [if_neg hd,(hother d hd).1]
  · funext d
    by_cases hd : d = c
    · rw [if_pos hd,hd,hpast,Bool.or_true]
    · rw [if_neg hd,(hother d hd).1,(hother d hd).2]

/-- Every other message leaves the register and the view of it alone. -/
theorem view_other {cfg : Config} {s t : State} {c : Fin 8} {x : Shared}
    (hget : (s.cpu c).pc ≠ x.get) (hset : (s.cpu c).pc ≠ x.set)
    (he : s.message cfg c = some t) : t.view x = s.view x := by
  have hother := message_other he
  have hkept : x.word t.regs = x.word s.regs ∧ (t.cpu c).pc ≠ x.set ∧
      (t.rung c || x.past (t.cpu c).pc) = (s.rung c || x.past (s.cpu c).pc) := by
    unfold State.message at he
    cases hpc : (s.cpu c).pc <;> simp only [hpc] at he
    case idle => contradiction
    case viewport r =>
      split at he
      · cases he
        cases x <;> simp [State.sets,State.goto,Shared.word,Shared.set,Shared.past]
      · contradiction
    case chan r =>
      have hafter : afterCh cfg r ≠ x.set ∧ x.past (afterCh cfg r) = true := by
        cases r <;> cases x <;> simp only [afterCh,setCh] <;> split <;>
          simp [Shared.set,Shared.past]
      have hchan : x.past (.chan r) = true := by cases x <;> rfl
      split at he
      all_goals
        cases he
        refine ⟨by cases x <;> rfl,?_,?_⟩ <;> simp [State.sets,State.goto,hafter,hchan]
    case setErrEn =>
      cases he
      cases x with
      | errEn => exact absurd hpc hset
      | intMask =>
        unfold setCh
        split <;> simp [State.sets,State.goto,Shared.word,Shared.set,Shared.past]
    case engineEn =>
      cases he
      cases hmf : cfg.mf <;> cases x <;>
        simp [State.sets,State.goto,Shared.word,Shared.set,Shared.past]
    all_goals
      cases he
      cases x <;> simp_all [State.sets,State.goto,State.load,Shared.word,Shared.get,Shared.set,
        Shared.past]
  exact view_eq c hkept.1 hother hkept.2.1 hset hkept.2.2

theorem view_start {cfg : Config} {s t : State} {c : Fin 8} {paddr : ℕ} (x : Shared)
    (he : step cfg s (.start c paddr) = some t) : t.view x = s.view x := by
  simp only [step] at he
  split at he
  · rename_i hpc
    cases he
    refine view_eq c rfl ?_ ?_ ?_ ?_
    · intro d hd
      simp [hd]
    · cases x <;> simp [Shared.set]
    · cases x <;> simp [hpc,Shared.set]
    · cases x <;> simp [hpc,Shared.past]
  · contradiction

/-- Seen from either register, the messages are reads and writes of it, and a write that is
not raced is a fresh one. -/
theorem step_view {cfg : Config} {s t : State} {l : Label} (x : Shared) (he : step cfg s l = some t)
    (hg : Unraced s l) : t.view x = s.view x ∨ ∃ a, ReadModifyWrite.Fresh (s.view x) a ∧
      ReadModifyWrite.step x.update (s.view x) a = some (t.view x) := by
  cases l with
  | start c paddr => exact Or.inl (view_start x he)
  | message c =>
    by_cases hget : (s.cpu c).pc = x.get
    · exact Or.inr ⟨.read c,trivial,view_read hget he⟩
    by_cases hset : (s.cpu c).pc = x.set
    · refine Or.inr ⟨.write c,?_,view_write hset he⟩
      intro v hv
      simp only [State.view,hset,if_true,Option.some.injEq] at hv
      rw [← hv]
      exact hg x hset
    · exact Or.inl (view_other hget hset he)

theorem view_off (r : Regs) (x : Shared) : (State.off r).view x =
    ⟨x.word (coreOff r),fun _ => none,fun _ => false⟩ := by
  cases x <;> rfl

/-- The property: a channel whose doorbell was written has its interrupts unmasked and its
linked list error enabled. -/
def Enabled (s : State) : Prop := ∀ c, s.rung c = true → ∀ x : Shared, x.ok c (x.word s.regs)

theorem inv_of_unraced {cfg : Config} {r : Regs} {s : State} {ls : List Label}
    (hr : Runs (step cfg) Unraced (State.off r) ls s) : ∀ x : Shared,
      ReadModifyWrite.Inv x.update x.ok (x.word (coreOff r)) (s.view x) := by
  intro x
  have hreach : Reaches (ReadModifyWrite.step x.update) ReadModifyWrite.Fresh
      ((State.off r).view x) (s.view x) :=
    hr.simulate (fun s => s.view x) (fun s l t hg he => step_view x he hg)
  refine hreach.invariant (fun s a t hi hg he => ReadModifyWrite.step_inv (updates x) hi hg he) ?_
  rw [view_off]
  exact ReadModifyWrite.inv_init _

theorem enabled_of_inv {s : State} {v : Shared → Word}
    (h : ∀ x : Shared, ReadModifyWrite.Inv x.update x.ok (v x) (s.view x)) : Enabled s := by
  intro c hc x
  exact (h x).updated c (by simp [State.view,hc])

/-! ## The locked window -/

/-- A channel that holds the lock writes next, and to its own registers. -/
structure Window (cfg : Config) (s : State) : Prop where
  legacy : ∀ c r, (s.cpu c).pc = .viewport r → cfg.mf = .legacy
  held : ∀ c, s.lock = some c → cfg.mf = .legacy ∧ ∃ r, (s.cpu c).pc = .chan r
  own : cfg.mf = .legacy → ∀ c r, (s.cpu c).pc = .chan r →
    s.lock = some c ∧ selected s.regs.viewportSel = c

theorem selected_viewportSel : ∀ (dir : Dir) (c : Fin 8), selected (viewportSel dir c) = c := by
  intro dir
  cases dir <;> decide

theorem setCh_viewport {cfg : Config} {r r' : ChReg} (h : setCh cfg r = .viewport r') :
    cfg.mf = .legacy := by
  unfold setCh at h
  split at h
  · assumption
  · contradiction

theorem afterCh_viewport {cfg : Config} {r r' : ChReg} (h : afterCh cfg r = .viewport r') :
    cfg.mf = .legacy := by
  cases r with
  | control1 => exact setCh_viewport h
  | llpLsb => exact setCh_viewport h
  | llpMsb =>
    simp only [afterCh] at h
    split at h <;> contradiction

theorem afterCh_ne_chan {cfg : Config} (hmf : cfg.mf = .legacy) (r r' : ChReg) :
    afterCh cfg r ≠ .chan r' := by
  intro h
  cases r <;> simp only [afterCh,setCh,hmf,if_true] at h
  · contradiction
  · contradiction
  · split at h <;> contradiction

theorem window_off (cfg : Config) (r : Regs) : Window cfg (State.off r) :=
  ⟨fun _ _ h => by contradiction,fun _ h => by contradiction,fun _ _ _ h => by contradiction⟩

/-- A step of a channel that neither takes nor releases the lock. -/
theorem Window.of_same {cfg : Config} {s t : State} (h : Window cfg s) (c : Fin 8)
    (hother : ∀ d, d ≠ c → t.cpu d = s.cpu d) (hl : t.lock = s.lock)
    (hv : t.regs.viewportSel = s.regs.viewportSel)
    (hview : ∀ r, (t.cpu c).pc = .viewport r → cfg.mf = .legacy)
    (hs : cfg.mf = .legacy → ∀ r, (s.cpu c).pc ≠ .chan r)
    (ht : cfg.mf = .legacy → ∀ r, (t.cpu c).pc ≠ .chan r) : Window cfg t := by
  refine ⟨?_,?_,?_⟩
  · intro d r hr
    by_cases hdc : d = c
    · rw [hdc] at hr
      exact hview r hr
    · rw [hother d hdc] at hr
      exact h.legacy d r hr
  · intro d hd
    rw [hl] at hd
    obtain ⟨hmf,r,hr⟩ := h.held d hd
    by_cases hdc : d = c
    · rw [hdc] at hr
      exact absurd hr (hs hmf r)
    · exact ⟨hmf,r,by rw [hother d hdc]; exact hr⟩
  · intro hmf d r hr
    by_cases hdc : d = c
    · rw [hdc] at hr
      exact absurd hr (ht hmf r)
    · rw [hother d hdc] at hr
      rw [hl,hv]
      exact h.own hmf d r hr

theorem window_viewport {cfg : Config} {s : State} {c : Fin 8} {r : ChReg} (h : Window cfg s)
    (hpc : (s.cpu c).pc = .viewport r) (hl : s.lock = none) :
    Window cfg ({ s with lock := some c }.sets c (.chan r)
      { s.regs with viewportSel := viewportSel cfg.dir c }) := by
  refine ⟨?_,?_,?_⟩
  · intro d r' hr
    exact h.legacy c r hpc
  · intro d hd
    have hdc : c = d := by simpa [State.sets,State.goto] using hd
    exact ⟨h.legacy c r hpc,r,by simp [State.sets,State.goto,hdc]⟩
  · intro hmf d r' hr
    by_cases hdc : d = c
    · rw [hdc]
      exact ⟨rfl,selected_viewportSel cfg.dir c⟩
    · have hd : (s.cpu d).pc = .chan r' := by simpa [State.sets,State.goto,hdc] using hr
      rw [(h.own hmf d r' hd).1] at hl
      contradiction

theorem window_chan {cfg : Config} {s : State} {c : Fin 8} {r : ChReg} (h : Window cfg s)
    (hmf : cfg.mf = .legacy) (hpc : (s.cpu c).pc = .chan r) (regs : Regs) :
    Window cfg ({ s with lock := none }.sets c (afterCh cfg r) regs) := by
  have hl := (h.own hmf c r hpc).1
  refine ⟨fun _ _ _ => hmf,?_,?_⟩
  · intro d hd
    contradiction
  · intro _ d r' hr
    by_cases hdc : d = c
    · have hc : afterCh cfg r = .chan r' := by simpa [State.sets,State.goto,hdc] using hr
      exact absurd hc (afterCh_ne_chan hmf r r')
    · have hd : (s.cpu d).pc = .chan r' := by simpa [State.sets,State.goto,hdc] using hr
      have hd' := (h.own hmf d r' hd).1
      rw [hl] at hd'
      exact absurd (Option.some.inj hd').symm hdc

theorem step_window {cfg : Config} {s t : State} {l : Label} (h : Window cfg s)
    (he : step cfg s l = some t) : Window cfg t := by
  cases l with
  | start c paddr =>
    simp only [step] at he
    split at he
    · rename_i hpc
      cases he
      refine h.of_same c (fun d hd => if_neg hd) rfl rfl ?_ ?_ ?_ <;> simp [hpc]
    · contradiction
  | message c =>
    have hother : ∀ d, d ≠ c → t.cpu d = s.cpu d := fun d hd => (message_other he d hd).1
    simp only [step,State.message] at he
    cases hpc : (s.cpu c).pc <;> simp only [hpc] at he
    case idle => contradiction
    case viewport r =>
      split at he
      · rename_i hl
        cases he
        exact window_viewport h hpc hl
      · contradiction
    case chan r =>
      split at he
      · rename_i hmf
        cases he
        exact window_chan h hmf hpc _
      · rename_i hmf
        cases he
        refine h.of_same c hother rfl rfl ?_ (fun hm => absurd hm hmf) (fun hm => absurd hm hmf)
        intro r' hr
        have hr' : afterCh cfg r = .viewport r' := by simpa [State.sets,State.goto] using hr
        exact afterCh_viewport hr'
    case setErrEn =>
      cases he
      refine h.of_same c hother rfl rfl ?_ (fun _ r => by simp [hpc]) ?_
      · intro r hr
        have hr' : setCh cfg .control1 = .viewport r := by simpa [State.sets,State.goto] using hr
        exact setCh_viewport hr'
      · intro hmf r
        simp [State.sets,State.goto,setCh,hmf]
    case engineEn =>
      cases he
      refine h.of_same c hother rfl rfl ?_ (fun _ r => by simp [hpc]) ?_
      all_goals cases hmf : cfg.mf <;> simp [State.sets,State.goto]
    all_goals
      cases he
      refine h.of_same c hother rfl rfl ?_ (fun _ r => by simp [hpc]) ?_ <;>
        simp [State.sets,State.goto,State.load]

/-! ## A raced write -/

/-- How many messages a start still has to send, at most. -/
def Pc.rank : Pc → ℕ
  | .idle => 0
  | .doorbell => 1
  | .readBack => 2
  | .chan .llpMsb => 3
  | .viewport .llpMsb => 4
  | .chan .llpLsb => 5
  | .viewport .llpLsb => 6
  | .chan .control1 => 7
  | .viewport .control1 => 8
  | .setErrEn => 9
  | .getErrEn => 10
  | .setIntMask => 11
  | .getIntMask => 12
  | .pwrEn => 13
  | .engineEn => 14

/-- A channel that is not kept out of the window can send its next message. -/
theorem message_enabled {cfg : Config} {s : State} {c : Fin 8} (hpc : (s.cpu c).pc ≠ .idle)
    (hl : s.lock = none ∨ s.lock = some c) (hw : Window cfg s) : ∃ t, s.message cfg c = some t ∧
      (t.lock = none ∨ t.lock = some c) ∧ (t.cpu c).pc.rank < (s.cpu c).pc.rank := by
  have hset : ∀ r, (setCh cfg r).rank ≤ Pc.rank (.viewport r) := by
    intro r
    unfold setCh
    split <;> cases r <;> decide
  have hafter : ∀ r, (afterCh cfg r).rank < Pc.rank (.chan r) := by
    intro r
    cases r with
    | control1 => exact Nat.lt_of_le_of_lt (hset _) (by decide)
    | llpLsb => exact Nat.lt_of_le_of_lt (hset _) (by decide)
    | llpMsb => simp only [afterCh]; split <;> decide
  cases h : (s.cpu c).pc with
  | idle => exact absurd h hpc
  | engineEn =>
    refine ⟨_,by simp only [State.message,h]; rfl,?_,?_⟩
    · exact hl
    · cases hmf : cfg.mf <;> simp [State.sets,State.goto,Pc.rank]
  | setErrEn =>
    refine ⟨_,by simp only [State.message,h]; rfl,?_,?_⟩
    · exact hl
    · simpa [State.sets,State.goto] using Nat.lt_of_le_of_lt (hset .control1) (by decide)
  | viewport r =>
    have hfree : s.lock = none := by
      rcases hl with hl | hl
      · exact hl
      · obtain ⟨_,r',hr⟩ := hw.held c hl
        rw [h] at hr
        contradiction
    refine ⟨_,by simp only [State.message,h,hfree,if_true]; rfl,?_,?_⟩
    · exact Or.inr rfl
    · cases r <;> simp [State.sets,State.goto,Pc.rank]
  | chan r =>
    by_cases hmf : cfg.mf = .legacy
    · refine ⟨_,by simp only [State.message,h,hmf,if_true]; rfl,?_,?_⟩
      · exact Or.inl rfl
      · simpa [State.sets,State.goto] using hafter r
    · refine ⟨_,by simp only [State.message,h,hmf,if_false]; rfl,?_,?_⟩
      · exact hl
      · simpa [State.sets,State.goto] using hafter r
  | pwrEn | getIntMask | setIntMask | getErrEn | readBack | doorbell =>
    refine ⟨_,by simp only [State.message,h]; rfl,?_,?_⟩
    · exact hl
    · simp [State.sets,State.goto,State.load,Pc.rank]

theorem Shared.past_ne {x : Shared} {pc : Pc} (h : x.past pc = true) :
    pc ≠ x.get ∧ pc ≠ x.set ∧ pc ≠ .idle := by
  refine ⟨?_,?_,?_⟩ <;> rintro rfl <;> cases x <;> contradiction

/-- A channel past its write of a register reaches its doorbell without touching it. -/
theorem ring {cfg : Config} {x : Shared} (c : Fin 8) (n : ℕ) : ∀ s : State, Window cfg s →
    (s.cpu c).pc.rank = n → (s.lock = none ∨ s.lock = some c) →
    (s.rung c || x.past (s.cpu c).pc) = true →
    ∃ ls t, Runs (step cfg) free s ls t ∧ t.rung c = true ∧ x.word t.regs = x.word s.regs := by
  induction n using Nat.strong_induction_on with
  | _ n ih =>
    intro s hw hn hl hup
    by_cases hr : s.rung c = true
    · exact ⟨[],s,.refl s,hr,rfl⟩
    · have hpast : x.past (s.cpu c).pc = true := by simpa [hr] using hup
      obtain ⟨hget,hset,hidle⟩ := x.past_ne hpast
      obtain ⟨m,hm,hlm,hlt⟩ := message_enabled hidle hl hw
      have hview := view_other hget hset hm
      have hupm : (m.rung c || x.past (m.cpu c).pc) = true := by
        have h := congrArg (fun v => v.updated c) hview
        exact h.trans hup
      have hword : x.word m.regs = x.word s.regs := congrArg ReadModifyWrite.State.word hview
      have he : step cfg s (.message c) = some m := hm
      obtain ⟨ls,t,ht,htr,htw⟩ := ih _ (by rw [← hn]; exact hlt) m (step_window hw he) rfl hlm hupm
      exact ⟨_,t,.step trivial he ht,htr,htw.trans hword⟩

/-- The holder of the lock writes and releases it. -/
theorem release {cfg : Config} {x : Shared} {s : State} (hw : Window cfg s) {c : Fin 8}
    (hl : s.lock = some c) : ∃ t, step cfg s (.message c) = some t ∧ t.lock = none ∧
      t.view x = s.view x := by
  obtain ⟨hmf,r,hr⟩ := hw.held c hl
  have he : s.message cfg c = some ({ s with lock := none }.sets c (afterCh cfg r)
      (s.regs.setCh (selected s.regs.viewportSel) r (chValue (s.cpu c).paddr r))) := by
    simp only [State.message,hr,hmf,if_true]
  refine ⟨_,he,rfl,view_other ?_ ?_ he⟩ <;> rw [hr] <;> cases x <;> simp [Shared.get,Shared.set]

/-- Once a channel past its write has lost it, its doorbell is reached without it. -/
theorem not_enabled_later {cfg : Config} {x : Shared} {s : State} (hw : Window cfg s) {c : Fin 8}
    (hup : (s.view x).updated c = true) (hok : ¬ x.ok c (x.word s.regs)) :
    ∃ ls t, Runs (step cfg) free s ls t ∧ ¬ Enabled t := by
  obtain ⟨ks,m,hm,hlm,hwm,hview⟩ : ∃ ks m, Runs (step cfg) free s ks m ∧
      (m.lock = none ∨ m.lock = some c) ∧ Window cfg m ∧ m.view x = s.view x := by
    cases hl : s.lock with
    | none => exact ⟨[],s,.refl s,Or.inl hl,hw,rfl⟩
    | some d =>
      obtain ⟨m,he,hlm,hview⟩ := release (x := x) hw hl
      exact ⟨_,m,.single trivial he,Or.inl hlm,step_window hw he,hview⟩
  have hupm : (m.view x).updated c = true := by rw [hview]; exact hup
  have hword : x.word m.regs = x.word s.regs := congrArg ReadModifyWrite.State.word hview
  obtain ⟨ls,t,ht,htr,htw⟩ := ring c _ m hwm rfl hlm hupm
  refine ⟨ks ++ ls,t,hm.append ht,fun h => hok ?_⟩
  rw [← hword,← htw]
  exact h c htr x

/-- In every run from `core_off` in which each write back of a shared register finds the
value that was read, the property holds in every state; and from the first write back
that does not, some continuation violates it. -/
theorem enabled_of_unraced {cfg : Config} {r : Regs} {s : State} {ls : List Label}
    (hr : Runs (step cfg) Unraced (State.off r) ls s) : Enabled s ∧
      ∀ l t, step cfg s l = some t → ¬ Unraced s l →
        ∃ ks u, Runs (step cfg) free t ks u ∧ ¬ Enabled u := by
  have hinv := inv_of_unraced hr
  have hw : Window cfg s := hr.invariant (fun _ _ _ h _ he => step_window h he) (window_off cfg r)
  refine ⟨enabled_of_inv hinv,?_⟩
  intro l t he hraced
  cases l with
  | start c paddr => exact absurd trivial hraced
  | message c =>
    simp only [Unraced,not_forall] at hraced
    obtain ⟨x,hpc,hne⟩ := hraced
    have hheld : (s.view x).held c = some (s.cpu c).tmp := by simp [State.view,hpc]
    obtain ⟨d,hdc,hup,hnot⟩ := ReadModifyWrite.stale_write_undoes (updates x) (hinv x) hheld hne
    have hwrite := view_write hpc he
    simp only [ReadModifyWrite.step,hheld,Option.map_some,Option.some.injEq] at hwrite
    refine not_enabled_later (x := x) (c := d) (step_window hw he) ?_ ?_
    · rw [← hwrite]
      simpa [hdc] using hup
    · have hword : x.word t.regs = x.update c (s.cpu c).tmp :=
        (congrArg ReadModifyWrite.State.word hwrite).symm
      rw [hword]
      exact hnot

/-- An unrolled map of a remote engine, and registers that are all zero. -/
def unrolled : Config := ⟨.unroll,.write,false⟩
def zeroRegs : Regs := ⟨0#32,0#32,0#32,0#32,0#32,0#32,fun _ => 0#32,fun _ _ => 0#32⟩

/-- Two channels in turns, each of which writes a shared register back before the other one
reads it. -/
def startsApart : List Label :=
  [.start 0 4096,.start 1 8192,.message 0,.message 1,.message 0,.message 0,.message 1,.message 1,
    .message 0,.message 0,.message 1,.message 1] ++
    (List.replicate 5 [.message 0,.message 1]).flatten

theorem startsApart_enabled :
    ∃ s, Runs (step unrolled) Unraced (State.off zeroRegs) startsApart s ∧
      s.rung 0 = true ∧ s.rung 1 = true ∧ Enabled s := by
  have hr : Runs (step unrolled) Unraced (State.off zeroRegs) startsApart _ := runs_of_check rfl
  exact ⟨_,hr,rfl,rfl,(enabled_of_unraced hr).1⟩

/-- Channel 1 reads the mask before channel 0 writes it, and writes it back after the
doorbell of channel 0. -/
def startRaced : List Label :=
  [.start 0 4096,.start 1 8192,.message 1,.message 1] ++ List.replicate 10 (.message 0) ++ [.message 1]

/-- The interrupts of channel 0 are masked again. -/
theorem startRaced_masked : ∃ s, Runs (step unrolled) free (State.off zeroRegs) startRaced s ∧
    s.rung 0 = true ∧ s.regs.intMask.getLsbD 0 = true ∧ ¬ Enabled s := by
  refine ⟨_,runs_of_exec (guarded_free _ _) rfl,rfl,rfl,?_⟩
  intro h
  exact absurd (h 0 rfl .intMask).1 (by decide)

end AkidaEdma.V0Core
