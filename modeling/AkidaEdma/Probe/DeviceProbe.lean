import AkidaEdma.Probe.EngineProbe
import AkidaEdma.Driver.Remove
import AkidaEdma.Library.LedgerFrame
import Mathlib.Data.List.Infix
import Mathlib.Tactic.FinCases

/-! # The steps of probing and removing a device

`akida_probe` and `akida_remove` of a device, step by step, and what each step does to the ledger
of what is not managed by devres: interrupt vectors, the resources of the engine, DMA channels,
device numbers and misc devices.
-/
namespace AkidaEdma.DeviceProbe
open Ledger Probe Driver DwEdma Transition

/-! ## The channel filter -/

def BIT (n : ℕ) : ℕ := 2 ^ n
def DMA_MEM_TO_DEV : ℕ := 1
def DMA_DEV_TO_MEM : ℕ := 2

/-- A channel of the engine of a device. -/
structure DmaChan (κ : Type*) where
  dev : κ
  dir : Dir
  id : ℕ
  deriving DecidableEq, Repr

/-- `caps->directions` as `dw_edma_device_caps` sets them. -/
def deviceCaps (isLocal : Bool) (dir : Dir) : ℕ :=
  if isLocal then
    if dir = .read then BIT DMA_DEV_TO_MEM else BIT DMA_MEM_TO_DEV
  else
    if dir = .write then BIT DMA_DEV_TO_MEM else BIT DMA_MEM_TO_DEV

/-- The directions of a channel: the variant for older kernels has no callback, and the devices of
the two directions have their own. -/
def caps (v : Variant) (isLocal : Bool) (dir : Dir) : ℕ :=
  match v with
  | .main => deviceCaps isLocal dir
  | .kernel54 => BIT (if dir = .write then DMA_DEV_TO_MEM else DMA_MEM_TO_DEV)

/-- `struct akida_filter_param`. -/
structure FilterParam (κ : Type*) where
  akida : κ
  dirMask : ℕ
  dirExp : ℕ

/-- `akida_dma_chan_filter`, on a channel of the engine. -/
def akidaDmaChanFilter {κ : Type*} [DecidableEq κ] (v : Variant) (isLocal : Bool)
    (chan : DmaChan κ) (p : FilterParam κ) : Bool :=
  if p.akida ≠ chan.dev then false
  else if caps v isLocal chan.dir &&& p.dirMask ≠ p.dirExp then false
  else true

/-- The parameter that `akida_dma_init` passes for a channel. -/
def filterParam {κ : Type*} (k : κ) (w : Way) : FilterParam κ where
  akida := k
  dirMask := BIT DMA_DEV_TO_MEM ||| BIT DMA_MEM_TO_DEV
  dirExp := match w with
    | .rx => BIT DMA_DEV_TO_MEM
    | .tx => BIT DMA_MEM_TO_DEV

/-- The filter passes the channels of the own engine that take the transfers of the way. -/
theorem filter_iff {κ : Type*} [DecidableEq κ] (v : Variant) (chip : Chip)
    (hlocal : chip.isLocal = false) (k : κ) (w : Way) (chan : DmaChan κ) :
    akidaDmaChanFilter v chip.isLocal chan (filterParam k w) = true ↔
      chan.dev = k ∧ directionOk chip chan.dir w.direction = true := by
  obtain ⟨dev,dir,id⟩ := chan
  by_cases hk : k = dev
  · subst hk
    simp only [akidaDmaChanFilter,filterParam,ne_eq,not_true,if_false,directionOk,hlocal,true_and]
    cases v <;> cases w <;> cases dir <;> decide
  · simp [akidaDmaChanFilter,filterParam,hk,Ne.symm hk]

/-! ## One device -/

inductive Resource (κ : Type*)
  | vectors (k : κ)
  | engine (k : κ) (r : Probe.Resource)
  | chan (c : DmaChan κ)
  | devno (board : Board) (n : ℕ)
  | misc (k : κ)
  deriving DecidableEq

/-- The elements of `rxchan` or `txchan`. -/
def chansOf (w : Way) : List ChanId := (List.finRange 2).map fun i => (w,i)

def firstOf (w : Way) : ChanId := (w,⟨0,Nat.zero_lt_two⟩)

/-- The loops of `akida_dma_init`. -/
def initOrder : List ChanId := chansOf .rx ++ chansOf .tx

/-- The loops behind the labels `free_rxchan` and `free_txchan`. -/
def freeOrder : Way → List ChanId
  | .rx => chansOf .rx
  | .tx => chansOf .tx ++ chansOf .rx

/-- What is done next for a device. Up to the interrupt vectors everything is managed. A list
holds the channels that a loop has to go through yet. -/
inductive Pc
  | absent
  | irqVectors
  | msiEnabled
  | edmaProbe
  | request (cs : List ChanId)
  | put (cs : List ChanId)
  | free (cs : List ChanId)
  | freeRelease (c : ChanId) (cs : List ChanId)
  | idaAlloc
  | miscRegister
  | probed
  | idaFree
  | exit (cs : List ChanId)
  | exitRelease (c : ChanId) (cs : List ChanId)
  | edmaRemove
  | freeIrqVectors
  deriving DecidableEq, Repr

/-- The fields of `struct akida_dev` that the probe and the removal go by. `ret` is the value of
the last probe, and `removing` tells that `akida_remove` runs. -/
structure Dev (κ : Type*) where
  pc : Pc
  ret : ℤ
  removing : Bool
  dw : Option Probed
  chan : ChanId → Option (DmaChan κ)
  devno : ℕ
  name : Option String

/-- The devices and what their cores report; the driver has its linked lists where the build says,
in BAR 4. -/
structure Fleet (κ : Type*) where
  board : κ → Board
  build : Build
  bar4 : κ → ℕ
  chCount : κ → Dir → ℕ

variable {κ : Type*}

/-- `akida->edma_chip` before the engine is probed. -/
def Fleet.edmaChip (F : Fleet κ) (k : κ) : EdmaChip where
  dev := true
  ops := true
  irqVector := true
  nrIrqs := 1
  llWrCnt := 2
  llRdCnt := 2
  chCount := F.chCount k
  regions := F.build.layout.edmaChip (F.bar4 k)
  dw := none

/-- What the calls of a step return: an error or 0, the number that `ida_alloc` finds, whether
`devm_kasprintf` gets its memory, the channel that is granted, and the calls of the engine's
probe. -/
structure Answer (κ : Type*) where
  err : ℤ
  id : ℕ
  named : Bool
  granted : Option (DmaChan κ)
  os : Outcomes

def miscdevName : Board → String
  | .akida1000 => "akida"
  | .akida1500 => "akd1500_"

/-- The name of the misc device, `"%s%d"`. -/
def miscName (board : Board) (devno : ℕ) : String := miscdevName board ++ Nat.repr devno

/-- What a step does: the device, the calls on the ledger, and the change of the module's
reference count. -/
structure Done (κ : Type*) where
  dev : Dev κ
  events : List (Event (Resource κ))
  refs : ℤ

/-- A device as `devm_kzalloc` makes it. -/
def Dev.fresh : Dev κ := ⟨.irqVectors,0,false,none,fun _ => none,0,none⟩

/-- The next step for a device. `none`: the loops of the engine's probe do not end, or a channel
that is not there is dereferenced. -/
def Dev.next (F : Fleet κ) (k : κ) (a : Answer κ) (d : Dev κ) : Option (Done κ) :=
  match d.pc with
  | .absent =>
    if a.err ≠ 0 then some ⟨{ d with ret := a.err },[],0⟩ else some ⟨Dev.fresh,[],0⟩
  | .irqVectors =>
    if a.err ≠ 0 then some ⟨{ d with pc := .absent, ret := -EPERM },[],0⟩
    else some ⟨{ d with pc := .msiEnabled },[.acquire (.vectors k)],0⟩
  | .msiEnabled =>
    if a.err ≠ 0 then some ⟨{ d with pc := .freeIrqVectors, ret := -EPERM },[],0⟩
    else some ⟨{ d with pc := .edmaProbe },[],0⟩
  | .edmaProbe =>
    let chip := F.edmaChip k
    (Probe.probe (max chip.nrIrqs (max chip.cnt.wr chip.cnt.rd)) .main chip a.os).map fun r =>
      let d := { d with dw := r.dw }
      let events := r.events.map (Event.map (Resource.engine k))
      if r.ret ≠ 0 then ⟨{ d with pc := .freeIrqVectors, ret := r.ret },events,0⟩
      else ⟨{ d with pc := .request initOrder },events,0⟩
  | .request [] => some ⟨{ d with pc := .idaAlloc },[],0⟩
  | .request (c :: cs) =>
    match a.granted with
    | none => some ⟨{ d with pc := .free (freeOrder c.1), ret := -EBUSY },[],0⟩
    | some g =>
      some ⟨{ d with pc := .put cs, chan := Function.update d.chan c (some g) },
        [.acquire (.chan g)],1⟩
  | .put cs => some ⟨{ d with pc := .request cs },[],-1⟩
  | .free [] => some ⟨{ d with pc := .edmaRemove },[],0⟩
  | .free (c :: cs) =>
    if (d.chan c).isSome then some ⟨{ d with pc := .freeRelease c cs },[],1⟩
    else some ⟨{ d with pc := .free cs },[],0⟩
  | .freeRelease c cs =>
    (d.chan c).map fun g => ⟨{ d with pc := .free cs },[.release (.chan g)],-1⟩
  | .idaAlloc =>
    if a.err < 0 then some ⟨{ d with pc := .exit exitOrder, ret := a.err },[],0⟩
    else some ⟨{ d with
      pc := .miscRegister
      devno := a.id
      name := if a.named then some (miscName (F.board k) a.id) else none },
      [.acquire (.devno (F.board k) a.id)],0⟩
  | .miscRegister =>
    if a.err ≠ 0 then some ⟨{ d with pc := .idaFree, ret := a.err },[],0⟩
    else some ⟨{ d with pc := .probed, ret := 0 },[.acquire (.misc k)],0⟩
  | .probed => some ⟨{ d with pc := .idaFree, removing := true },[.release (.misc k)],0⟩
  | .idaFree =>
    let channels := (d.chan (firstOf .tx)).isSome && (d.chan (firstOf .rx)).isSome
    some ⟨{ d with pc := if d.removing && !channels then .edmaRemove else .exit exitOrder },
      [.release (.devno (F.board k) d.devno)],0⟩
  | .exit [] => some ⟨{ d with pc := .edmaRemove },[],0⟩
  | .exit (c :: cs) =>
    (d.chan c).map fun _ => ⟨{ d with pc := .exitRelease c cs },[],1⟩
  | .exitRelease c cs =>
    (d.chan c).map fun g => ⟨{ d with pc := .exit cs },[.release (.chan g)],-1⟩
  | .edmaRemove =>
    some ⟨{ d with pc := .freeIrqVectors },
      (Probe.remove .main d.dw).events.map (Event.map (Resource.engine k)),0⟩
  | .freeIrqVectors => some ⟨{ d with pc := .absent },[.release (.vectors k)],0⟩

/-! ## What a device holds -/

/-- From the allocation of the vectors to their release. -/
def Pc.vectors : Pc → Bool
  | .absent | .irqVectors => false
  | _ => true

def Pc.engine : Pc → Bool
  | .absent | .irqVectors | .msiEnabled | .edmaProbe | .freeIrqVectors => false
  | _ => true

def Pc.devno : Pc → Bool
  | .miscRegister | .probed | .idaFree => true
  | _ => false

/-- The elements of `rxchan` and `txchan` whose channels are not given back yet, if there are. -/
def Pc.chans : Pc → List ChanId
  | .request _ | .put _ | .idaAlloc | .miscRegister | .probed | .idaFree => initOrder
  | .free cs | .exit cs => cs
  | .freeRelease c cs | .exitRelease c cs => c :: cs
  | _ => []

/-- A reference of the module was taken for a call on a channel. -/
def Pc.transit : Pc → ℤ
  | .put _ | .freeRelease _ _ | .exitRelease _ _ => 1
  | _ => 0

/-- The vectors and the device that a probed engine holds. -/
def engineResources (nrIrqs : ℕ) : List Probe.Resource :=
  (List.range nrIrqs).map .irq ++ (Variant.devices .main).map .dmaDevice

/-- The resources of a device, at the step it is at. -/
def Dev.has (F : Fleet κ) (k : κ) (d : Dev κ) : Set (Resource κ)
  | .vectors j => j = k ∧ d.pc.vectors = true
  | .engine j r => j = k ∧ d.pc.engine = true ∧ ∃ p, d.dw = some p ∧ r ∈ engineResources p.nrIrqs
  | .chan g => ∃ c ∈ d.pc.chans, d.chan c = some g
  | .devno board n => board = F.board k ∧ d.pc.devno = true ∧ n = d.devno
  | .misc j => j = k ∧ d.pc = .probed

/-- The resources that no other device can have. -/
def mine (k : κ) : Set (Resource κ)
  | .vectors j => j = k
  | .engine j _ => j = k
  | .chan g => g.dev = k
  | .devno _ _ => False
  | .misc j => j = k

/-- The number of channels of the engine. -/
def Fleet.cnt (F : Fleet κ) (k : κ) (dir : Dir) : ℕ :=
  if dir = .write then (F.edmaChip k).cnt.wr else (F.edmaChip k).cnt.rd

/-- A channel of the own engine that takes the transfers of the way. -/
structure Suits (F : Fleet κ) (k : κ) (w : Way) (g : DmaChan κ) : Prop where
  dev : g.dev = k
  direction : directionOk (F.edmaChip k).regions g.dir w.direction = true
  id_lt : g.id < F.cnt k g.dir

/-- How the fields `chan` stand at a step. -/
def Pc.Stands (chan : ChanId → Option (DmaChan κ)) : Pc → Prop
  | .request cs | .put cs => cs <:+ initOrder ∧ ∀ c, chan c = none ↔ c ∈ cs
  | .idaAlloc | .miscRegister | .probed | .idaFree => ∀ c, chan c ≠ none
  | .free cs => cs.Nodup
  | .freeRelease c cs => (c :: cs).Nodup ∧ chan c ≠ none
  | .exit cs => cs.Nodup ∧ ∀ c ∈ cs, chan c ≠ none
  | .exitRelease c cs => (c :: cs).Nodup ∧ ∀ e ∈ c :: cs, chan e ≠ none
  | .irqVectors | .msiEnabled | .edmaProbe => ∀ c, chan c = none
  | _ => True

/-- A probe that does not succeed, or a removal. -/
def Pc.undoing : Pc → Bool
  | .free _ | .freeRelease _ _ | .idaFree | .exit _ | .exitRelease _ _ | .edmaRemove
  | .freeIrqVectors => true
  | _ => false

structure Dev.Sound (F : Fleet κ) (k : κ) (d : Dev κ) : Prop where
  dw : d.pc.engine = true → ∃ p, d.dw = some p
  suits : ∀ c g, d.chan c = some g → Suits F k c.1 g
  inj : ∀ c e g, d.chan c = some g → d.chan e = some g → c = e
  stands : d.pc.Stands d.chan
  named : d.pc.devno = true → d.name = none ∨ d.name = some (miscName (F.board k) d.devno)
  failed : d.pc.undoing = true → d.removing = false → d.ret ≠ 0
  fine : d.pc = .probed → d.ret = 0

/-- The channels in `initOrder` are all. -/
theorem mem_initOrder (c : ChanId) : c ∈ initOrder := by
  obtain ⟨w,i⟩ := c
  cases w <;> fin_cases i <;> decide

theorem exitOrder_nodup : exitOrder.Nodup := by decide

/-- The labels of `akida_dma_init` reach every channel that was requested before the failing one. -/
theorem requested_freed {c : ChanId} {cs : List ChanId} (h : c :: cs <:+ initOrder) (e : ChanId)
    (he : e ∉ c :: cs) : e ∈ freeOrder c.1 := by
  have hcases : c :: cs ∈ initOrder.tails := (List.mem_tails _ _).mpr h
  have hall : ∀ l ∈ initOrder.tails, ∀ c cs, l = c :: cs → ∀ e ∈ initOrder, e ∉ c :: cs →
      e ∈ freeOrder c.1 := by
    intro l hl c cs hl'
    have hinit : initOrder = [(.rx,0),(.rx,1),(.tx,0),(.tx,1)] := rfl
    rw [hinit] at hl
    simp only [List.tails,List.mem_cons,List.not_mem_nil,or_false] at hl
    rcases hl with rfl | rfl | rfl | rfl | rfl <;> cases hl' <;> decide
  exact hall _ hcases c cs rfl e (mem_initOrder e) he

theorem freeOrder_nodup (w : Way) : (freeOrder w).Nodup := by cases w <;> decide

@[simp] theorem mem_has_vectors {F : Fleet κ} {k j : κ} {d : Dev κ} :
    .vectors j ∈ d.has F k ↔ j = k ∧ d.pc.vectors = true := Iff.rfl
@[simp] theorem mem_has_engine {F : Fleet κ} {k j : κ} {d : Dev κ} {r : Probe.Resource} :
    .engine j r ∈ d.has F k ↔
      j = k ∧ d.pc.engine = true ∧ ∃ p, d.dw = some p ∧ r ∈ engineResources p.nrIrqs := Iff.rfl
@[simp] theorem mem_has_chan {F : Fleet κ} {k : κ} {d : Dev κ} {g : DmaChan κ} :
    .chan g ∈ d.has F k ↔ ∃ c ∈ d.pc.chans, d.chan c = some g := Iff.rfl
@[simp] theorem mem_has_devno {F : Fleet κ} {k : κ} {d : Dev κ} {board : Board} {n : ℕ} :
    .devno board n ∈ d.has F k ↔ board = F.board k ∧ d.pc.devno = true ∧ n = d.devno := Iff.rfl
@[simp] theorem mem_has_misc {F : Fleet κ} {k j : κ} {d : Dev κ} :
    .misc j ∈ d.has F k ↔ j = k ∧ d.pc = .probed := Iff.rfl

theorem has_absent {F : Fleet κ} {k : κ} {d : Dev κ} (hpc : d.pc = .absent) (x : Resource κ) :
    x ∉ d.has F k := by
  cases x <;> simp [hpc,Pc.vectors,Pc.engine,Pc.chans,Pc.devno]

/-- A channel goes back, in one of the loops. -/
theorem has_released {F : Fleet κ} {k : κ} {d e : Dev κ} (h : d.Sound F k) {c : ChanId}
    {cs : List ChanId} {g : DmaChan κ} (hc : d.chan c = some g) (hnot : c ∉ cs)
    (hpc : d.pc = .freeRelease c cs ∧ e.pc = .free cs ∨ d.pc = .exitRelease c cs ∧ e.pc = .exit cs)
    (hchan : e.chan = d.chan) (hdw : e.dw = d.dw) (y : Resource κ) :
    y ∈ e.has F k ↔ y ≠ .chan g ∧ y ∈ d.has F k := by
  cases y with
  | chan f =>
    have hlists : d.pc.chans = c :: cs ∧ e.pc.chans = cs := by
      rcases hpc with ⟨hd,he⟩ | ⟨hd,he⟩ <;> rw [hd,he] <;> exact ⟨rfl,rfl⟩
    rw [mem_has_chan,mem_has_chan,hchan,hlists.1,hlists.2]
    constructor
    · rintro ⟨e',he',hf⟩
      refine ⟨?_,e',List.mem_cons_of_mem _ he',hf⟩
      rintro ⟨⟩
      exact hnot (h.inj _ _ _ hc hf ▸ he')
    · rintro ⟨hne,e',he',hf⟩
      rcases List.mem_cons.mp he' with rfl | he'
      · rw [hc] at hf
        exact absurd (by rw [Option.some.inj hf]) hne
      · exact ⟨e',he',hf⟩
  | _ =>
    rcases hpc with ⟨hd,he⟩ | ⟨hd,he⟩ <;>
      simp [hd,he,hdw,Pc.vectors,Pc.engine,Pc.devno]

/-! ## The engine in the ledger -/

theorem engine_injective (k : κ) : Function.Injective (Resource.engine k) :=
  fun _ _ h => (Resource.engine.inj h).2

/-- The probe of the engine comes back, with an error and nothing held, or with its resources. -/
theorem engine_probed (F : Fleet κ) (k : κ) (os : Outcomes) : ∃ r,
    Probe.probe (max (F.edmaChip k).nrIrqs (max (F.edmaChip k).cnt.wr (F.edmaChip k).cnt.rd)) .main
      (F.edmaChip k) os = some r ∧
    (r.ret ≠ 0 ∧ exec ∅ r.events = some ∅ ∨
      ∃ p, r.ret = 0 ∧ r.dw = some p ∧
        exec ∅ r.events = some (engineResources p.nrIrqs).toFinset) := by
  obtain ⟨r,hr⟩ := probe_returns .main (F.edmaChip k) os
  refine ⟨r,hr,?_⟩
  rcases probe_cases hr with ⟨hne,hun,_⟩ | ⟨n,hok,hev,hdw⟩ | ⟨_,hhalf,_⟩
  · exact Or.inl ⟨hne,hun.none_held⟩
  · refine Or.inr ⟨⟨n⟩,hok,hdw,?_⟩
    rw [hev,requested_registered,exec_acquire (fun _ _ h => by contradiction)
      (resources_nodup n (by decide)),Finset.empty_union]
    rfl
  · exact absurd hhalf.1 (by decide)

/-- The removal of the engine gives them back. -/
theorem engine_removed (p : Probed) :
    exec (engineResources p.nrIrqs).toFinset (Probe.remove .main (some p)).events = some ∅ := by
  have hall := exec_remove .main p.nrIrqs
  rw [exec_append,requested_registered,exec_acquire (fun _ _ h => by contradiction)
    (resources_nodup p.nrIrqs (by decide)),Option.bind_some,Finset.empty_union] at hall
  exact hall

/-! ## One step of one device -/

variable [DecidableEq κ]

/-- What the channel that a step is granted must be. -/
def Dev.Granted (F : Fleet κ) (k : κ) (a : Answer κ) (d : Dev κ) : Prop :=
  ∀ c cs g, d.pc = .request (c :: cs) → a.granted = some g →
    Suits F k c.1 g ∧ ∀ e, d.chan e ≠ some g

/-- The step that a device takes, and what it does. -/
structure Dev.Steps (F : Fleet κ) (k : κ) (a : Answer κ) (d : Dev κ) (r : Done κ) : Prop where
  brings : Brings (mine k) (d.has F k) r.events (r.dev.has F k)
  sound : r.dev.Sound F k
  refs : r.refs = r.dev.pc.transit - d.pc.transit
  fresh : ∀ x ∈ acquired r.events, x ∈ mine k ∨ d.pc = .idaAlloc ∧ x = .devno (F.board k) a.id

variable {F : Fleet κ} {k : κ} {a : Answer κ} {d : Dev κ}

/-- A step without calls on the ledger. -/
theorem Dev.Steps.quiet {e : Dev κ} {n : ℤ} (hhas : e.has F k = d.has F k) (hs : e.Sound F k)
    (hn : n = e.pc.transit - d.pc.transit) : d.Steps F k a ⟨e,[],n⟩ :=
  ⟨brings_nil hhas,hs,hn,fun _ h => absurd h List.not_mem_nil⟩

/-- A step that acquires one resource of its own. -/
theorem Dev.Steps.acquire {e : Dev κ} {x : Resource κ} {n : ℤ} (hx : x ∉ d.has F k)
    (hhas : ∀ y, y ∈ e.has F k ↔ y = x ∨ y ∈ d.has F k) (hs : e.Sound F k)
    (hn : n = e.pc.transit - d.pc.transit)
    (hmine : x ∈ mine k ∨ d.pc = .idaAlloc ∧ x = .devno (F.board k) a.id) :
    d.Steps F k a ⟨e,[.acquire x],n⟩ := by
  refine ⟨brings_acquire hx hhas,hs,hn,fun y hy => ?_⟩
  rw [List.mem_singleton.mp hy]
  exact hmine

theorem Dev.Steps.release {e : Dev κ} {x : Resource κ} {n : ℤ} (hx : x ∈ d.has F k)
    (hhas : ∀ y, y ∈ e.has F k ↔ y ≠ x ∧ y ∈ d.has F k) (hs : e.Sound F k)
    (hn : n = e.pc.transit - d.pc.transit) : d.Steps F k a ⟨e,[.release x],n⟩ :=
  ⟨brings_release hx hhas,hs,hn,fun _ h => absurd h List.not_mem_nil⟩

theorem steps_request {c : ChanId} {cs : List ChanId} {g : DmaChan κ} (h : d.Sound F k)
    (hpc : d.pc = .request (c :: cs)) (hsuits : Suits F k c.1 g) (hnew : ∀ e, d.chan e ≠ some g) :
    d.Steps F k a ⟨{ d with pc := .put cs, chan := Function.update d.chan c (some g) },
      [.acquire (.chan g)],1⟩ := by
  have hstands := h.stands
  rw [hpc] at hstands
  obtain ⟨hsuffix,hnone⟩ := hstands
  have hcnone : d.chan c = none := (hnone c).mpr List.mem_cons_self
  have hupdate : ∀ e f, Function.update d.chan c (some g) e = some f ↔
      e = c ∧ f = g ∨ e ≠ c ∧ d.chan e = some f := by
    intro e f
    by_cases he : e = c
    · subst he
      simp [eq_comm]
    · simp [he]
  have hcs : c ∉ cs := by
    have hnodup : (c :: cs).Nodup := hsuffix.sublist.nodup (by decide)
    exact (List.nodup_cons.mp hnodup).1
  apply Dev.Steps.acquire
  · rw [mem_has_chan]
    rintro ⟨e,_,he⟩
    exact hnew e he
  · intro y
    cases y with
    | chan f =>
      have hchans : d.pc.chans = initOrder := by rw [hpc]; rfl
      rw [mem_has_chan,mem_has_chan,hchans]
      change (∃ e ∈ initOrder, Function.update d.chan c (some g) e = some f) ↔ _
      constructor
      · rintro ⟨e,_,he⟩
        rcases (hupdate e f).mp he with ⟨_,rfl⟩ | ⟨_,he⟩
        · exact Or.inl rfl
        · exact Or.inr ⟨e,mem_initOrder e,he⟩
      · rintro (hf | ⟨e,_,he⟩)
        · exact ⟨c,mem_initOrder c,(hupdate c f).mpr (Or.inl ⟨rfl,Resource.chan.inj hf⟩)⟩
        · have hne : e ≠ c := by
            rintro rfl
            rw [hcnone] at he
            contradiction
          exact ⟨e,mem_initOrder e,(hupdate e f).mpr (Or.inr ⟨hne,he⟩)⟩
    | _ => simp [hpc,Pc.vectors,Pc.engine,Pc.devno]
  · refine ⟨fun _ => h.dw (by rw [hpc]; rfl),fun e f he => ?_,fun e e' f he he' => ?_,⟨?_,?_⟩,nofun,nofun,
      nofun⟩
    · rcases (hupdate e f).mp he with ⟨rfl,rfl⟩ | ⟨_,he⟩
      · exact hsuits
      · exact h.suits e f he
    · rcases (hupdate e f).mp he with ⟨hec,hf⟩ | ⟨_,hold⟩ <;>
        rcases (hupdate e' f).mp he' with ⟨hec',hf'⟩ | ⟨_,hold'⟩
      · rw [hec,hec']
      · rw [hf] at hold'
        exact absurd hold' (hnew e')
      · rw [hf'] at hold
        exact absurd hold (hnew e)
      · exact h.inj e e' f hold hold'
    · exact (List.suffix_cons c cs).trans hsuffix
    · intro e
      by_cases he : e = c
      · subst he
        simp [hcs]
      · have hiff := hnone e
        simp only [List.mem_cons,he,false_or] at hiff
        simpa [he] using hiff
  · rw [hpc]
    rfl
  · exact Or.inl hsuits.dev

/-- The calls of the engine's probe and removal, in the ledger of the devices. -/
theorem Dev.Steps.engine {e : Dev κ} {es : List (Event Probe.Resource)}
    {held held' : Finset Probe.Resource} (he : exec held es = some held')
    (hP : ∀ r, .engine k r ∈ d.has F k ↔ r ∈ held) (hP' : ∀ r, .engine k r ∈ e.has F k ↔ r ∈ held')
    (hchan : d.pc.chans = [] ∧ e.pc.chans = [] ∨ ∀ c, d.chan c = none ∧ e.chan c = none)
    (hvectors : e.pc.vectors = d.pc.vectors) (hdevno : d.pc.devno = false ∧ e.pc.devno = false)
    (hmisc : d.pc ≠ .probed ∧ e.pc ≠ .probed) (hs : e.Sound F k)
    (hn : 0 = e.pc.transit - d.pc.transit) :
    d.Steps F k a ⟨e,es.map (Event.map (Resource.engine k)),0⟩ := by
  refine ⟨brings_map (engine_injective k) he (fun _ => rfl) hP hP' fun x hx => ?_,hs,hn,
    fun x hx => ?_⟩
  · cases x with
    | engine j r =>
      have hj : j ≠ k := by
        rintro rfl
        exact hx ⟨r,rfl⟩
      simp [hj]
    | chan g =>
      rcases hchan with ⟨hd,he'⟩ | hnone
      · simp [hd,he']
      · simp [hnone]
    | vectors j => simp [hvectors]
    | devno b n => simp [hdevno]
    | misc j => simp [hmisc]
  · rw [acquired_map] at hx
    obtain ⟨r,_,rfl⟩ := List.mem_map.mp hx
    exact Or.inl rfl

theorem steps_edmaProbe (h : d.Sound F k) (hpc : d.pc = .edmaProbe) :
    ∃ r, d.next F k a = some r ∧ d.Steps F k a r := by
  obtain ⟨r,hr,hcases⟩ := engine_probed F k a.os
  have hnone : ∀ c, d.chan c = none := by
    have hstands := h.stands
    rw [hpc] at hstands
    exact hstands
  have hbefore : ∀ x, .engine k x ∈ d.has F k ↔ x ∈ (∅ : Finset Probe.Resource) := by
    intro x
    simp [hpc,Pc.engine]
  have hsuits : ∀ c g, d.chan c = some g → Suits F k c.1 g := h.suits
  simp only [Dev.next,hpc,hr,Option.map_some]
  rcases hcases with ⟨hne,he⟩ | ⟨p,hok,hdw,he⟩
  · rw [if_pos hne]
    refine ⟨_,rfl,Dev.Steps.engine he hbefore (fun x => ?_) (Or.inr fun c => ⟨hnone c,hnone c⟩) ?_
      ?_ ?_ ?_ ?_⟩
    · simp [Pc.engine]
    · rw [hpc]
      rfl
    · rw [hpc]
      exact ⟨rfl,rfl⟩
    · rw [hpc]
      exact ⟨nofun,nofun⟩
    · exact ⟨nofun,hsuits,h.inj,trivial,nofun,fun _ _ => hne,nofun⟩
    · rw [hpc]
      rfl
  · rw [if_neg (not_not.mpr hok)]
    refine ⟨_,rfl,Dev.Steps.engine he hbefore (fun x => ?_) (Or.inr fun c => ⟨hnone c,hnone c⟩) ?_
      ?_ ?_ ?_ ?_⟩
    · simp [Pc.engine,hdw]
    · rw [hpc]
      rfl
    · rw [hpc]
      exact ⟨rfl,rfl⟩
    · rw [hpc]
      exact ⟨nofun,nofun⟩
    · refine ⟨fun _ => ⟨p,hdw⟩,hsuits,h.inj,⟨List.suffix_rfl,fun c => ?_⟩,nofun,nofun,nofun⟩
      simp [hnone c,mem_initOrder c]
    · rw [hpc]
      rfl

theorem steps_edmaRemove (h : d.Sound F k) (hpc : d.pc = .edmaRemove) :
    d.Steps F k a ⟨{ d with pc := .freeIrqVectors },
      (Probe.remove .main d.dw).events.map (Event.map (Resource.engine k)),0⟩ := by
  obtain ⟨p,hp⟩ := h.dw (by rw [hpc]; rfl)
  have he := engine_removed p
  rw [← hp] at he
  refine Dev.Steps.engine he (fun x => ?_) (fun x => ?_) (Or.inl ?_) ?_ ?_ ?_ ?_ ?_
  · simp [hpc,Pc.engine,hp]
  · simp [Pc.engine]
  · rw [hpc]
    exact ⟨rfl,rfl⟩
  · rw [hpc]
    rfl
  · rw [hpc]
    exact ⟨rfl,rfl⟩
  · rw [hpc]
    exact ⟨nofun,nofun⟩
  · exact ⟨nofun,h.suits,h.inj,trivial,nofun,fun _ hr => h.failed (by rw [hpc]; rfl) hr,nofun⟩
  · rw [hpc]
    rfl

/-- The loops that give channels back. -/
theorem steps_free {cs : List ChanId} (h : d.Sound F k) (hpc : d.pc = .free cs) :
    ∃ r, d.next F k a = some r ∧ d.Steps F k a r := by
  have hfailed : d.removing = false → d.ret ≠ 0 := h.failed (by rw [hpc]; rfl)
  have hdw : ∃ p, d.dw = some p := h.dw (by rw [hpc]; rfl)
  have hnodup : cs.Nodup := by
    have hstands := h.stands
    rw [hpc] at hstands
    exact hstands
  cases cs with
  | nil =>
    simp only [Dev.next,hpc]
    refine ⟨_,rfl,.quiet ?_ ?_ (by rw [hpc]; rfl)⟩
    · ext y
      cases y <;> simp [hpc,Pc.vectors,Pc.engine,Pc.chans,Pc.devno]
    · exact ⟨fun _ => hdw,h.suits,h.inj,trivial,nofun,fun _ => hfailed,nofun⟩
  | cons c cs =>
    simp only [Dev.next,hpc]
    cases hc : d.chan c with
    | none =>
      rw [if_neg (by simp)]
      refine ⟨_,rfl,.quiet ?_ ?_ (by rw [hpc]; rfl)⟩
      · ext y
        cases y <;> simp [hpc,hc,Pc.vectors,Pc.engine,Pc.chans,Pc.devno]
      · exact ⟨fun _ => hdw,h.suits,h.inj,(List.nodup_cons.mp hnodup).2,nofun,fun _ => hfailed,
          nofun⟩
    | some g =>
      rw [if_pos Option.isSome_some]
      refine ⟨_,rfl,.quiet ?_ ?_ (by rw [hpc]; rfl)⟩
      · ext y
        cases y <;> simp [hpc,Pc.vectors,Pc.engine,Pc.chans,Pc.devno]
      · exact ⟨fun _ => hdw,h.suits,h.inj,⟨hnodup,by rw [hc]; simp⟩,nofun,fun _ => hfailed,nofun⟩

theorem steps_freeRelease {c : ChanId} {cs : List ChanId} (h : d.Sound F k)
    (hpc : d.pc = .freeRelease c cs) : ∃ r, d.next F k a = some r ∧ d.Steps F k a r := by
  have hstands := h.stands
  rw [hpc] at hstands
  obtain ⟨hnodup,hsome⟩ := hstands
  obtain ⟨g,hc⟩ := Option.ne_none_iff_exists'.mp hsome
  simp only [Dev.next,hpc,hc,Option.map_some]
  refine ⟨_,rfl,.release ?_ (has_released h hc (List.nodup_cons.mp hnodup).1 (Or.inl ⟨hpc,rfl⟩)
    rfl rfl) ?_ (by rw [hpc]; rfl)⟩
  · rw [mem_has_chan,hpc]
    exact ⟨c,List.mem_cons_self,hc⟩
  · exact ⟨fun _ => h.dw (by rw [hpc]; rfl),h.suits,h.inj,(List.nodup_cons.mp hnodup).2,nofun,
      fun _ => h.failed (by rw [hpc]; rfl),nofun⟩

theorem steps_exit {cs : List ChanId} (h : d.Sound F k) (hpc : d.pc = .exit cs) :
    ∃ r, d.next F k a = some r ∧ d.Steps F k a r := by
  have hfailed : d.removing = false → d.ret ≠ 0 := h.failed (by rw [hpc]; rfl)
  have hdw : ∃ p, d.dw = some p := h.dw (by rw [hpc]; rfl)
  have hstands := h.stands
  rw [hpc] at hstands
  obtain ⟨hnodup,hall⟩ := hstands
  cases cs with
  | nil =>
    simp only [Dev.next,hpc]
    refine ⟨_,rfl,.quiet ?_ ?_ (by rw [hpc]; rfl)⟩
    · ext y
      cases y <;> simp [hpc,Pc.vectors,Pc.engine,Pc.chans,Pc.devno]
    · exact ⟨fun _ => hdw,h.suits,h.inj,trivial,nofun,fun _ => hfailed,nofun⟩
  | cons c cs =>
    obtain ⟨g,hc⟩ := Option.ne_none_iff_exists'.mp (hall c List.mem_cons_self)
    simp only [Dev.next,hpc,hc,Option.map_some]
    refine ⟨_,rfl,.quiet ?_ ?_ (by rw [hpc]; rfl)⟩
    · ext y
      cases y <;> simp [hpc,Pc.vectors,Pc.engine,Pc.chans,Pc.devno]
    · exact ⟨fun _ => hdw,h.suits,h.inj,⟨hnodup,hall⟩,nofun,fun _ => hfailed,nofun⟩

theorem steps_exitRelease {c : ChanId} {cs : List ChanId} (h : d.Sound F k)
    (hpc : d.pc = .exitRelease c cs) : ∃ r, d.next F k a = some r ∧ d.Steps F k a r := by
  have hstands := h.stands
  rw [hpc] at hstands
  obtain ⟨hnodup,hall⟩ := hstands
  obtain ⟨g,hc⟩ := Option.ne_none_iff_exists'.mp (hall c List.mem_cons_self)
  simp only [Dev.next,hpc,hc,Option.map_some]
  refine ⟨_,rfl,.release ?_ (has_released h hc (List.nodup_cons.mp hnodup).1 (Or.inr ⟨hpc,rfl⟩)
    rfl rfl) ?_ (by rw [hpc]; rfl)⟩
  · rw [mem_has_chan,hpc]
    exact ⟨c,List.mem_cons_self,hc⟩
  · exact ⟨fun _ => h.dw (by rw [hpc]; rfl),h.suits,h.inj,⟨(List.nodup_cons.mp hnodup).2,
      fun e he => hall e (List.mem_cons_of_mem _ he)⟩,nofun,fun _ => h.failed (by rw [hpc]; rfl),
      nofun⟩

/-- The steps from the allocation of the number on, and back. -/
theorem steps_idaAlloc (h : d.Sound F k) (hpc : d.pc = .idaAlloc) :
    ∃ r, d.next F k a = some r ∧ d.Steps F k a r := by
  have hdw : ∃ p, d.dw = some p := h.dw (by rw [hpc]; rfl)
  have hall : ∀ c, d.chan c ≠ none := by
    have hstands := h.stands
    rw [hpc] at hstands
    exact hstands
  simp only [Dev.next,hpc]
  by_cases herr : a.err < 0
  · rw [if_pos herr]
    refine ⟨_,rfl,.quiet ?_ ?_ (by rw [hpc]; rfl)⟩
    · ext y
      cases y <;>
        simp [hpc,Pc.vectors,Pc.engine,Pc.chans,Pc.devno,mem_initOrder,mem_exitOrder]
    · exact ⟨fun _ => hdw,h.suits,h.inj,⟨exitOrder_nodup,fun c _ => hall c⟩,nofun,
        fun _ _ => ne_of_lt herr,nofun⟩
  · rw [if_neg herr]
    refine ⟨_,rfl,.acquire ?_ (fun y => ?_) ?_ (by rw [hpc]; rfl) (Or.inr ⟨hpc,rfl⟩)⟩
    · simp [hpc,Pc.devno]
    · cases y <;> simp [hpc,Pc.vectors,Pc.engine,Pc.chans,Pc.devno]
    · refine ⟨fun _ => hdw,h.suits,h.inj,hall,fun _ => ?_,nofun,nofun⟩
      cases a.named
      · exact Or.inl rfl
      · exact Or.inr rfl

theorem steps_miscRegister (h : d.Sound F k) (hpc : d.pc = .miscRegister) :
    ∃ r, d.next F k a = some r ∧ d.Steps F k a r := by
  have hdw : ∃ p, d.dw = some p := h.dw (by rw [hpc]; rfl)
  have hnamed : d.name = none ∨ d.name = some (miscName (F.board k) d.devno) :=
    h.named (by rw [hpc]; rfl)
  have hall : ∀ c, d.chan c ≠ none := by
    have hstands := h.stands
    rw [hpc] at hstands
    exact hstands
  simp only [Dev.next,hpc]
  by_cases herr : a.err ≠ 0
  · rw [if_pos herr]
    refine ⟨_,rfl,.quiet ?_ ?_ (by rw [hpc]; rfl)⟩
    · ext y
      cases y <;> simp [hpc,Pc.vectors,Pc.engine,Pc.chans,Pc.devno]
    · exact ⟨fun _ => hdw,h.suits,h.inj,hall,fun _ => hnamed,fun _ _ => herr,nofun⟩
  · rw [if_neg herr]
    refine ⟨_,rfl,.acquire ?_ (fun y => ?_) ?_ (by rw [hpc]; rfl) (Or.inl rfl)⟩
    · simp [hpc]
    · cases y <;> simp [hpc,Pc.vectors,Pc.engine,Pc.chans,Pc.devno]
    · exact ⟨fun _ => hdw,h.suits,h.inj,hall,fun _ => hnamed,nofun,fun _ => rfl⟩

theorem steps_probed (h : d.Sound F k) (hpc : d.pc = .probed) :
    ∃ r, d.next F k a = some r ∧ d.Steps F k a r := by
  have hall : ∀ c, d.chan c ≠ none := by
    have hstands := h.stands
    rw [hpc] at hstands
    exact hstands
  simp only [Dev.next,hpc]
  refine ⟨_,rfl,.release ?_ (fun y => ?_) ?_ (by rw [hpc]; rfl)⟩
  · simp [hpc]
  · cases y <;> simp [hpc,Pc.vectors,Pc.engine,Pc.chans,Pc.devno]
  · exact ⟨fun _ => h.dw (by rw [hpc]; rfl),h.suits,h.inj,hall,
      fun _ => h.named (by rw [hpc]; rfl),nofun,nofun⟩

theorem steps_idaFree (h : d.Sound F k) (hpc : d.pc = .idaFree) :
    ∃ r, d.next F k a = some r ∧ d.Steps F k a r := by
  have hall : ∀ c, d.chan c ≠ none := by
    have hstands := h.stands
    rw [hpc] at hstands
    exact hstands
  have hsome : ∀ c, (d.chan c).isSome = true := fun c => Option.isSome_iff_ne_none.mpr (hall c)
  simp only [Dev.next,hpc,hsome,Bool.and_self,Bool.not_true,Bool.and_false,Bool.false_eq_true,
    if_false]
  refine ⟨_,rfl,.release ?_ (fun y => ?_) ?_ (by rw [hpc]; rfl)⟩
  · simp [hpc,Pc.devno]
  · cases y <;>
      simp [hpc,Pc.vectors,Pc.engine,Pc.chans,Pc.devno,mem_initOrder,mem_exitOrder]
  · exact ⟨fun _ => h.dw (by rw [hpc]; rfl),h.suits,h.inj,⟨exitOrder_nodup,fun c _ => hall c⟩,
      nofun,fun _ => h.failed (by rw [hpc]; rfl),nofun⟩

/-- A device that is probed or removed always goes on, and what it does is accounted for. -/
theorem next_steps (h : d.Sound F k) (hg : d.Granted F k a) :
    ∃ r, d.next F k a = some r ∧ d.Steps F k a r := by
  have hsuits : ∀ c g, d.chan c = some g → Suits F k c.1 g := h.suits
  have hstands := h.stands
  cases hpc : d.pc with
  | absent =>
    simp only [Dev.next,hpc]
    by_cases herr : a.err ≠ 0
    · rw [if_pos herr]
      refine ⟨_,rfl,.quiet ?_ ?_ (by rw [hpc]; rfl)⟩
      · ext y
        cases y <;> simp [hpc,Pc.vectors,Pc.engine,Pc.chans,Pc.devno]
      · exact ⟨nofun,hsuits,h.inj,trivial,nofun,nofun,nofun⟩
    · rw [if_neg herr]
      refine ⟨_,rfl,.quiet ?_ ?_ (by rw [hpc]; rfl)⟩
      · ext y
        cases y <;> simp [hpc,Dev.fresh,Pc.vectors,Pc.engine,Pc.chans,Pc.devno]
      · exact ⟨nofun,nofun,nofun,fun _ => rfl,nofun,nofun,nofun⟩
  | irqVectors =>
    rw [hpc] at hstands
    simp only [Dev.next,hpc]
    by_cases herr : a.err ≠ 0
    · rw [if_pos herr]
      refine ⟨_,rfl,.quiet ?_ ?_ (by rw [hpc]; rfl)⟩
      · ext y
        cases y <;> simp [hpc,Pc.vectors,Pc.engine,Pc.chans,Pc.devno]
      · exact ⟨nofun,hsuits,h.inj,trivial,nofun,nofun,nofun⟩
    · rw [if_neg herr]
      refine ⟨_,rfl,.acquire ?_ (fun y => ?_) ?_ (by rw [hpc]; rfl) (Or.inl rfl)⟩
      · simp [hpc,Pc.vectors]
      · cases y <;> simp [hpc,Pc.vectors,Pc.engine,Pc.chans,Pc.devno]
      · exact ⟨nofun,hsuits,h.inj,hstands,nofun,nofun,nofun⟩
  | msiEnabled =>
    rw [hpc] at hstands
    simp only [Dev.next,hpc]
    by_cases herr : a.err ≠ 0
    · rw [if_pos herr]
      refine ⟨_,rfl,.quiet ?_ ?_ (by rw [hpc]; rfl)⟩
      · ext y
        cases y <;> simp [hpc,Pc.vectors,Pc.engine,Pc.chans,Pc.devno]
      · exact ⟨nofun,hsuits,h.inj,trivial,nofun,fun _ _ => by simp [EPERM],nofun⟩
    · rw [if_neg herr]
      refine ⟨_,rfl,.quiet ?_ ?_ (by rw [hpc]; rfl)⟩
      · ext y
        cases y <;> simp [hpc,Pc.vectors,Pc.engine,Pc.chans,Pc.devno]
      · exact ⟨nofun,hsuits,h.inj,hstands,nofun,nofun,nofun⟩
  | edmaProbe => exact steps_edmaProbe h hpc
  | request cs =>
    have hdw : ∃ p, d.dw = some p := h.dw (by rw [hpc]; rfl)
    rw [hpc] at hstands
    obtain ⟨hsuffix,hnone⟩ := hstands
    cases cs with
    | nil =>
      simp only [Dev.next,hpc]
      refine ⟨_,rfl,.quiet ?_ ?_ (by rw [hpc]; rfl)⟩
      · ext y
        cases y <;> simp [hpc,Pc.vectors,Pc.engine,Pc.chans,Pc.devno]
      · exact ⟨fun _ => hdw,hsuits,h.inj,fun c hc => absurd ((hnone c).mp hc) List.not_mem_nil,
          nofun,nofun,nofun⟩
    | cons c cs =>
      simp only [Dev.next,hpc]
      cases hgrant : a.granted with
      | none =>
        refine ⟨_,rfl,.quiet ?_ ?_ (by rw [hpc]; rfl)⟩
        · ext y
          cases y with
          | chan g =>
            have hchans : d.pc.chans = initOrder := by rw [hpc]; rfl
            rw [mem_has_chan,mem_has_chan,hchans]
            constructor
            · rintro ⟨e,_,he⟩
              exact ⟨e,mem_initOrder e,he⟩
            · rintro ⟨e,_,he⟩
              refine ⟨e,requested_freed hsuffix e fun hmem => ?_,he⟩
              rw [(hnone e).mpr hmem] at he
              contradiction
          | _ => simp [hpc,Pc.vectors,Pc.engine,Pc.devno]
        · exact ⟨fun _ => hdw,hsuits,h.inj,freeOrder_nodup c.1,nofun,fun _ _ => by simp [EBUSY],
            nofun⟩
      | some g =>
        obtain ⟨hs,hnew⟩ := hg c cs g hpc hgrant
        exact ⟨_,rfl,steps_request h hpc hs hnew⟩
  | put cs =>
    rw [hpc] at hstands
    simp only [Dev.next,hpc]
    refine ⟨_,rfl,.quiet ?_ ?_ (by rw [hpc]; rfl)⟩
    · ext y
      cases y <;> simp [hpc,Pc.vectors,Pc.engine,Pc.chans,Pc.devno]
    · exact ⟨fun _ => h.dw (by rw [hpc]; rfl),hsuits,h.inj,hstands,nofun,nofun,nofun⟩
  | free cs => exact steps_free h hpc
  | freeRelease c cs => exact steps_freeRelease h hpc
  | idaAlloc => exact steps_idaAlloc h hpc
  | miscRegister => exact steps_miscRegister h hpc
  | probed => exact steps_probed h hpc
  | idaFree => exact steps_idaFree h hpc
  | exit cs => exact steps_exit h hpc
  | exitRelease c cs => exact steps_exitRelease h hpc
  | edmaRemove =>
    simp only [Dev.next,hpc]
    exact ⟨_,rfl,steps_edmaRemove h hpc⟩
  | freeIrqVectors =>
    simp only [Dev.next,hpc]
    refine ⟨_,rfl,.release ?_ (fun y => ?_) ?_ (by rw [hpc]; rfl)⟩
    · simp [hpc,Pc.vectors]
    · cases y <;> simp [hpc,Pc.vectors,Pc.engine,Pc.chans,Pc.devno]
    · exact ⟨nofun,hsuits,h.inj,trivial,nofun,nofun,nofun⟩

end AkidaEdma.DeviceProbe
