import AkidaEdma.Driver.Calm
import AkidaEdma.Driver.Layout
import AkidaEdma.Engine.Execution

/-! # From the user to the device and back

The driver together with its engine and the memories: the buffer of the user and the `kmalloc`
buffer of every call, the memory of the host as the device sees it, and the memory of the device.
The copies from and to the user are made by the calls; a mapping hands the buffer of a call over
to the device, and unmapping hands it back; the elements of the lists are moved by the engine, at
any time while a chunk runs.
-/
namespace AkidaEdma.DataPath
open Transition BlockCopy LittleEndian
open AkidaEdma.Driver (ChanId DmaChan Xfer Choice Way Device Calm Calmed)
open AkidaEdma.Execution (Machine Setup Ch Move Lane Allowed)
open AkidaEdma.DwEdma (Op Burst Desc Bus bursts issues)

theorem chans_le : 2 ≤ 8 := by decide

/-- The channel of the engine. -/
def hw (c : ChanId) : Ch := (c.1.dir,c.2.castLE chans_le)

/-- What probing leaves behind: a device of the driver, and its engine with the lists in the
reserved area. -/
structure Installation where
  dev : Device
  setup : Setup
  chip : setup.chip = dev.chip
  llMax : ∀ c, setup.llMax (hw c) = dev.llMax c
  laid : setup.Laid (Set.range hw)
  reserved : setup.lists (Set.range hw) ⊆ Set.Ico dev.ram.start dev.ram.stop
  plain : dev.chip.pciAddress = none

/-- The engine of a build on a board that translates BAR 4, mapped at `bar4`, to the address of the
layout. -/
def buildSetup (build : Driver.Build) (mf : Registers.Mf) (force32 : Bool) (bar4 : ℕ) : Setup where
  mf := mf
  chip := build.layout.edmaChip bar4
  force32 := force32
  aperture := ⟨bar4,build.layout.ram.addr,build.layout.ram.offset + build.layout.ram.size⟩
  llMax c := Driver.llMax (Driver.llRegion (build.layout.edmaChip bar4) c.1 c.2)

/-- The board with a fixed target translates BAR 4 to another address in the SRAM layout. -/
theorem buildSetup_translated {build : Driver.Build} {board : Driver.Board} (mf : Registers.Mf)
    (force32 : Bool) (bar4 off : ℕ) :
    board.translate build.layout.ram 4 off =
        some ((buildSetup build mf force32 bar4).aperture.target + off) ↔
      ¬ (board = .akida1500 ∧ build = .dmaSramPhy) := by
  rw [Driver.translate_eq build.layout.ram board (by decide)]
  cases board with
  | akida1000 => simp [Driver.Board.barTarget,buildSetup]
  | akida1500 =>
    simp only [Driver.Board.barTarget,buildSetup,Option.map_some,Option.some.injEq,
      Nat.add_right_cancel_iff,true_and]
    cases build <;> decide

theorem hw_lt (c : ChanId) : (hw c).2.val < 2 := c.2.isLt

theorem buildSetup_region (build : Driver.Build) (mf : Registers.Mf) (force32 : Bool) (bar4 : ℕ)
    (c : ChanId) : (buildSetup build mf force32 bar4).region (hw c) =
      build.layout.region bar4 (build.layout.area (hw c).1 (hw c).2) :=
  Driver.llRegion_eq build.layout bar4 (hw c).1 (hw_lt c)

theorem buildSetup_llMax (build : Driver.Build) (mf : Registers.Mf) (force32 : Bool) (bar4 : ℕ)
    (c : ChanId) : (buildSetup build mf force32 bar4).llMax (hw c) =
      Driver.llMax ⟨0,0,(build.layout.area (hw c).1 (hw c).2).size⟩ :=
  (congrArg Driver.llMax (Driver.llRegion_eq build.layout bar4 (hw c).1 (hw_lt c))).trans rfl

theorem buildSetup_laid (build : Driver.Build) (mf : Registers.Mf) (force32 : Bool) (bar4 : ℕ) :
    (buildSetup build mf force32 bar4).Laid (Set.range hw) := by
  have hsound := Driver.build_sound build
  constructor
  · rintro _ ⟨c,rfl⟩
    obtain ⟨_,hhigh⟩ := hsound.reserved (hw c).1 (hw c).2 (hw_lt c)
    rw [buildSetup_region]
    refine ⟨Nat.le_add_right _ _,?_,?_⟩
    · dsimp only [buildSetup,Driver.Layout.region]
      omega
    · dsimp only [buildSetup,Driver.Layout.region]
      omega
  · rintro _ ⟨c,rfl⟩
    rw [buildSetup_region,buildSetup_llMax,Nat.mul_add]
    exact hsound.room (hw c).1 (hw c).2 (hw_lt c)
  · rintro _ ⟨c,rfl⟩
    rw [buildSetup_llMax]
    exact hsound.positive (hw c).1 (hw c).2 (hw_lt c)
  · rintro _ ⟨c,rfl⟩
    obtain ⟨_,hhigh⟩ := hsound.reserved (hw c).1 (hw c).2 (hw_lt c)
    have hfits := build.layout.ram.fits
    rw [buildSetup_region]
    dsimp only [Driver.Layout.region]
    omega
  · rintro _ ⟨c,rfl⟩ _ ⟨c',rfl⟩ hne
    have hapart := hsound.apart (hw c).1 (hw c).2 (hw c').1 (hw c').2 (hw_lt c) (hw_lt c') ?_
    · rw [Setup.area,Setup.area,buildSetup_region,buildSetup_region,Set.disjoint_left]
      intro y hy hy'
      rw [Set.mem_Ico] at hy hy'
      dsimp only [Driver.Layout.region] at hy hy'
      omega
    · intro heq
      obtain ⟨hdir,hid⟩ := Prod.mk.inj heq
      exact hne (Prod.ext hdir (Fin.ext hid)).symm

/-- Every build is laid out so, on a board that reaches its lists through BAR 4
(`buildSetup_translated`). -/
def buildInstallation (build : Driver.Build) (mf : Registers.Mf) (force32 : Bool) (bar4 : ℕ) :
    Installation where
  dev :=
    { chip := build.layout.edmaChip bar4
      ram := build.layout.ram
      llMax := fun c => (buildSetup build mf force32 bar4).llMax (hw c)
      room := fun c => (buildSetup_laid build mf force32 bar4).some (hw c) ⟨c,rfl⟩ }
  setup := buildSetup build mf force32 bar4
  chip := rfl
  llMax _ := rfl
  laid := buildSetup_laid build mf force32 bar4
  reserved := by
    rintro y ⟨_,⟨c,rfl⟩,hy⟩
    obtain ⟨hlow,hhigh⟩ := (Driver.build_sound build).reserved (hw c).1 (hw c).2 (hw_lt c)
    rw [Setup.area,buildSetup_region,Set.mem_Ico] at hy
    dsimp only [Driver.Layout.region] at hy
    change build.layout.ram.addr + build.layout.ram.offset ≤ y ∧
      y < build.layout.ram.addr + build.layout.ram.offset + build.layout.ram.size
    omega
  plain := rfl

/-- `tmp` and `user` are the buffers of each call, and `buffer` tells whose `tmp` the channel has
mapped; nothing in the code reads it. -/
structure System where
  driver : Driver.State
  machine : Machine
  tmp : ℕ → Memory
  user : ℕ → Memory
  buffer : ChanId → ℕ

/-- The operation of the engine that a step of `akida_dma_transfer` makes. -/
def xferOp (way : Way) (x : Xfer) (c : DmaChan) (ch : Choice) : Option Op :=
  match x.stage with
  | .config => some (.config (Driver.slaveConfig way x.devAddr c.dmaBuf))
  | .prep => if ch.ok then some (.prep (Driver.slaveSingle way c.dmaBuf c.dmaLen)) else none
  | .submit => some (.submit x.txdesc)
  | .issue => some .issuePending
  | .terminate => some (.terminateAll ch.st)
  | _ => none

/-- What the engine does at a step of the driver; a chunk ends where the engine halts. -/
def engineMove (s : Driver.State) : Driver.Label → Option Move
  | .enter _ _ _ _ _ => none
  | .run k ch =>
    match (s.calls k).map Driver.Call.phase with
    | some (.transfer c x) => (xferOp c.1 x (s.chans c) ch).map (.op (hw c))
    | _ => none
  | .finish c .done => some (.halt (hw c))
  | .finish c .abort => some (.op (hw c) (.finish .abort))
  | .interrupt c => some (.op (hw c) .interrupt)
  | .tasklet _ => none

def follow (su : Setup) (m : Machine) : Option Move → Option Machine
  | none => some m
  | some mv => m.step su mv

/-- `copy_from_user` of `n` bytes of the chunk. -/
def System.copyFromUser (s : System) (k usrBuf n : ℕ) : System :=
  { s with tmp := Function.update s.tmp k ((Copy.mk usrBuf 0 n).run (s.user k) (s.tmp k)) }

/-- `copy_to_user`. -/
def System.copyToUser (s : System) (k usrBuf n : ℕ) : System :=
  { s with user := Function.update s.user k ((Copy.mk 0 usrBuf n).run (s.tmp k) (s.user k)) }

/-- A mapping for `DMA_TO_DEVICE` shows the device the bytes of the buffer. -/
def System.mapSingle (s : System) (c : ChanId) (k addr len : ℕ) : System :=
  { s with
    buffer := Function.update s.buffer c k
    machine :=
      if c.1 = .tx then { s.machine with
        bus := { s.machine.bus with far := (Copy.mk 0 addr len).run (s.tmp k) s.machine.bus.far } }
      else s.machine }

/-- Unmapping from `DMA_FROM_DEVICE` shows the buffer the bytes that the device wrote. -/
def System.unmapSingle (s : System) (c : ChanId) : System :=
  let buf := Copy.mk (s.driver.chans c).dmaBuf 0 (s.driver.chans c).dmaLen
  if c.1 = .rx then
    { s with
      tmp := Function.update s.tmp (s.buffer c) (buf.run s.machine.bus.far (s.tmp (s.buffer c))) }
  else s

/-- The copies at a step of the driver; one that fails gets to `n` bytes at most. -/
def System.copies (s : System) : Driver.Label → ℕ → System
  | .run k ch, n =>
    match s.driver.calls k with
    | none => s
    | some a =>
      match a.phase with
      | .loop _ =>
        if a.way = .tx ∧ a.loop.left ≠ 0 then
          s.copyFromUser k a.loop.usrBuf (if ch.ok then a.loop.size else min n a.loop.size)
        else s
      | .transfer c x =>
        match x.stage with
        | .map => if ch.ok then s.mapSingle c k ch.addr x.len else s
        | .err _ => s.unmapSingle c
        | _ => s
      | .copy _ =>
        s.copyToUser k a.loop.usrBuf (if ch.ok then a.loop.size else min n a.loop.size)
      | _ => s
  | .tasklet c, _ => s.unmapSingle c
  | _, _ => s

inductive Label
  | driver (l : Driver.Label) (n : ℕ)
  | element (c : ChanId)
  deriving DecidableEq, Repr

def step (w : Installation) (s : System) : Label → Option System
  | .driver l n =>
    (Driver.step w.dev s.driver l).bind fun d =>
      (follow w.setup (s.copies l n).machine (engineMove s.driver l)).map fun m =>
        { s.copies l n with driver := d, machine := m }
  | .element c => (s.machine.element w.setup (hw c)).map fun m => { s with machine := m }

def System.init (w : Installation) (regs : Registers.RegFile) (bus : Bus) (tmp user : ℕ → Memory) :
    System where
  driver := Driver.State.init w.dev
  machine := Machine.init w.setup regs bus
  tmp := tmp
  user := user
  buffer _ := 0

/-- The steps of a calm run. -/
def CalmStep (s : System) : Label → Prop
  | .driver l _ => Calm s.driver l
  | .element _ => True

/-! ## Steps -/

variable {w : Installation} {s t : System}

theorem step_driver {l : Driver.Label} {n : ℕ} (h : step w s (.driver l n) = some t) :
    Driver.step w.dev s.driver l = some t.driver ∧
      follow w.setup (s.copies l n).machine (engineMove s.driver l) = some t.machine ∧
      t.tmp = (s.copies l n).tmp ∧ t.user = (s.copies l n).user ∧
      t.buffer = (s.copies l n).buffer := by
  obtain ⟨d,hd,h⟩ := Option.bind_eq_some_iff.mp h
  obtain ⟨m,hm,rfl⟩ := Option.map_eq_some_iff.mp h
  exact ⟨hd,hm,rfl,rfl,rfl⟩

theorem step_element {c : ChanId} (h : step w s (.element c) = some t) :
    ∃ m, s.machine.element w.setup (hw c) = some m ∧ t = { s with machine := m } := by
  obtain ⟨m,hm,rfl⟩ := Option.map_eq_some_iff.mp h
  exact ⟨m,hm,rfl⟩

theorem hw_injective : Function.Injective hw := by
  rintro ⟨way,i⟩ ⟨way',i'⟩ h
  obtain ⟨hdir,hi⟩ := Prod.mk.inj h
  have hway : way = way' := by cases way <;> cases way' <;> first | rfl | contradiction
  have hval : i.val = i'.val := congrArg (fun j : Fin 8 => j.val) hi
  rw [hway,Fin.ext hval]

/-- The copies touch no more of the engine than the memory of the host. -/
theorem copies_machine (s : System) (l : Driver.Label) (n : ℕ) :
    (s.copies l n).machine.chan = s.machine.chan ∧ (s.copies l n).machine.regs = s.machine.regs ∧
      (s.copies l n).machine.moved = s.machine.moved ∧
      (s.copies l n).machine.bus.near = s.machine.bus.near ∧ (s.copies l n).driver = s.driver := by
  have hun : ∀ c, (s.unmapSingle c).machine = s.machine ∧ (s.unmapSingle c).driver = s.driver := by
    intro c
    unfold System.unmapSingle
    split <;> exact ⟨rfl,rfl⟩
  have hsame : ∀ {m : Machine} {d : Driver.State}, m = s.machine ∧ d = s.driver →
      m.chan = s.machine.chan ∧ m.regs = s.machine.regs ∧ m.moved = s.machine.moved ∧
        m.bus.near = s.machine.bus.near ∧ d = s.driver := by
    rintro m d ⟨rfl,rfl⟩
    exact ⟨rfl,rfl,rfl,rfl,rfl⟩
  cases l with
  | run k ch =>
    unfold System.copies
    dsimp only
    split
    · exact hsame ⟨rfl,rfl⟩
    · split
      · split <;> exact hsame ⟨rfl,rfl⟩
      · split
        · split
          · unfold System.mapSingle
            dsimp only
            split <;> exact ⟨rfl,rfl,rfl,rfl,rfl⟩
          · exact hsame ⟨rfl,rfl⟩
        · exact hsame (hun _)
        · exact hsame ⟨rfl,rfl⟩
      · exact hsame ⟨rfl,rfl⟩
      · exact hsame ⟨rfl,rfl⟩
  | tasklet c => exact hsame (hun c)
  | _ => exact hsame ⟨rfl,rfl⟩

/-! ## The engine and the driver -/

theorem xferOp_step {dev : Device} {way : Way} {x x' : Xfer} {c c' : DmaChan} {ch : Choice}
    (h : x.step dev way c ch = some (c',x')) :
    match xferOp way x c ch with
    | none => c'.engine = c.engine
    | some o => DwEdma.step dev.chip c.engine o = some c'.engine := by
  have hop : ∀ {o : Op} {f : DmaChan → DmaChan × Xfer}, (∀ c, (f c).1.engine = c.engine) →
      (c.op dev o).map f = some (c',x') → DwEdma.step dev.chip c.engine o = some c'.engine := by
    intro o f hf h
    obtain ⟨d,hd,he⟩ := Option.map_eq_some_iff.mp h
    obtain ⟨e,hstep,rfl⟩ := Driver.op_some hd
    have hfirst := hf { c with engine := e }
    rw [he] at hfirst
    rw [hstep,hfirst]
  unfold Xfer.step at h
  unfold xferOp
  cases hs : x.stage <;> simp only [hs] at h ⊢
  case map => split at h <;> cases h <;> rfl
  case config => exact hop (fun _ => rfl) h
  case prep =>
    split at h
    · rename_i hnone
      cases h
      split at hnone
      · rename_i hok
        have hkeep : c.engine.prep dev.chip (Driver.slaveSingle way c.dmaBuf c.dmaLen) =
            c.engine := by
          have hno : DwEdma.deviceTransfer dev.chip c.engine.chan c.engine.nextVd
            (Driver.slaveSingle way c.dmaBuf c.dmaLen) = none := hnone
          rw [DwEdma.State.prep,hno]
        simp only [hok,if_true]
        exact congrArg some hkeep
      · rename_i hok
        simp [hok]
    · rename_i d hd
      split at hd
      · rename_i hok
        simp only [hok,if_true]
        exact hop (fun _ => rfl) h
      · contradiction
  case reinit => cases h; rfl
  case submit => exact hop (fun _ => rfl) h
  case issue => exact hop (fun _ => rfl) h
  case wait => split at h <;> split at h <;> first | contradiction | (cases h; rfl)
  case terminate => exact hop (fun _ => rfl) h
  case err ret => cases h; rfl
  case returned ret => contradiction

/-- The move of the engine, and what it does to the engine of the channel. -/
inductive Drives (dev : Device) (s d : Driver.State) : Option Move → Prop
  | none (h : ∀ c, (d.chans c).engine = (s.chans c).engine) : Drives dev s d none
  | op {c : ChanId} {o : Op} (ho : o ≠ .finish .done)
      (h : DwEdma.step dev.chip (s.chans c).engine o = some (d.chans c).engine)
      (hothers : ∀ e, e ≠ c → (d.chans e).engine = (s.chans e).engine) :
      Drives dev s d (some (.op (hw c) o))
  | halt {c : ChanId}
      (h : DwEdma.step dev.chip (s.chans c).engine (.finish .done) = some (d.chans c).engine)
      (hothers : ∀ e, e ≠ c → (d.chans e).engine = (s.chans e).engine) :
      Drives dev s d (some (.halt (hw c)))

theorem drives_setChan {dev : Device} {s d : Driver.State} {c : ChanId} {o : Op}
    (h : ((s.chans c).op dev o).map (s.setChan c) = some d) :
    DwEdma.step dev.chip (s.chans c).engine o = some (d.chans c).engine ∧
      ∀ e, e ≠ c → (d.chans e).engine = (s.chans e).engine := by
  obtain ⟨d',hd,rfl⟩ := Option.map_eq_some_iff.mp h
  obtain ⟨e,he,rfl⟩ := Driver.op_some hd
  refine ⟨?_,fun f hf => ?_⟩
  · rw [Driver.setChan_same]
    exact he
  · rw [Driver.setChan_other hf]

theorem step_drives {dev : Device} {s d : Driver.State} {l : Driver.Label}
    (h : Driver.step dev s l = some d) : Drives dev s d (engineMove s l) := by
  cases l with
  | enter k way pos sz ok =>
    simp only [Driver.step] at h
    split at h
    · cases h
      exact .none fun _ => rfl
    · contradiction
  | run k ch =>
    obtain ⟨a,b,ha,ht,_⟩ := Driver.run_turns h
    generalize hchans : d.chans = chans at ht
    have hsame : ∀ {p : Driver.Phase}, a.phase = p → (∀ c x, p = .transfer c x →
        xferOp c.1 x (s.chans c) ch = none) → chans = s.chans →
        Drives dev s d (engineMove s (.run k ch)) := by
      intro p hp hno hc
      have hnone : engineMove s (.run k ch) = none := by
        simp only [engineMove,ha,Option.map_some,hp]
        split
        · rename_i c x hq
          rw [hno c x (Option.some.inj hq)]
          rfl
        · rfl
      rw [hnone]
      exact .none fun c => by rw [hchans,hc]
    have hret : ∀ {c : ChanId} {x : Xfer} {ret : ℤ}, x.stage = .returned ret → ∀ c' x',
        Driver.Phase.transfer c x = .transfer c' x' → xferOp c'.1 x' (s.chans c') ch = none := by
      rintro c x ret hs c' x' ⟨⟩
      simp only [xferOp,hs]
    cases ht with
    | waits hp _ => exact hsame rfl (fun c x hq => by rw [hq] at hp; exact hp.elim) rfl
    | finished hp _ => exact hsame hp (fun _ _ hq => by contradiction) rfl
    | fault hp _ _ _ => exact hsame hp (fun _ _ hq => by contradiction) rfl
    | begin hp _ _ => exact hsame hp (fun _ _ hq => by contradiction) rfl
    | failed hp hs _ => exact hsame hp (hret hs) rfl
    | received hp hs _ _ => exact hsame hp (hret hs) rfl
    | sent hp hs _ _ => exact hsame hp (hret hs) rfl
    | copied hp _ => exact hsame hp (fun _ _ hq => by contradiction) rfl
    | uncopied hp _ => exact hsame hp (fun _ _ hq => by contradiction) rfl
    | released hp => exact hsame hp (fun _ _ hq => by contradiction) rfl
    | @transfer c x x' e hp hx =>
      have hop := xferOp_step hx
      have hself : (d.chans c).engine = e.engine := by rw [hchans,Function.update_self]
      have hothers : ∀ f, f ≠ c → (d.chans f).engine = (s.chans f).engine := by
        intro f hf
        rw [hchans,Function.update_of_ne hf]
      have hmove : engineMove s (.run k ch) = (xferOp c.1 x (s.chans c) ch).map (.op (hw c)) := by
        simp only [engineMove,ha,Option.map_some,hp]
      rw [hmove]
      cases ho : xferOp c.1 x (s.chans c) ch with
      | none =>
        rw [ho] at hop
        refine .none fun f => ?_
        by_cases hf : f = c
        · rw [hf,hself]
          exact hop
        · exact hothers f hf
      | some o =>
        rw [ho] at hop
        refine .op ?_ (by rw [hself]; exact hop) hothers
        rintro rfl
        unfold xferOp at ho
        cases hs : x.stage <;> simp [hs] at ho
  | finish c irq =>
    obtain ⟨he,hothers⟩ := drives_setChan h
    cases irq with
    | done => exact .halt he hothers
    | abort => exact .op (by decide) he hothers
  | interrupt c =>
    obtain ⟨he,hothers⟩ := drives_setChan h
    exact .op (by decide) he hothers
  | tasklet c =>
    obtain ⟨d',hd,rfl⟩ := Option.map_eq_some_iff.mp h
    obtain ⟨f,_,rfl⟩ := Option.map_eq_some_iff.mp hd
    refine .none fun e => ?_
    by_cases hec : e = c
    · rw [hec,Driver.setChan_same]
      rfl
    · rw [Driver.setChan_other hec]

theorem operate_chan {su : Setup} {m m' : Machine} {c : Ch} {o : Op}
    (h : m.operate su c o = some m') :
    ∃ e, DwEdma.step su.chip (m.chan c) o = some e ∧ m'.chan = Function.update m.chan c e := by
  unfold Machine.operate at h
  split at h
  · contradiction
  · obtain ⟨e,he,rfl⟩ := Option.map_eq_some_iff.mp h
    refine ⟨e,he,?_⟩
    cases DwEdma.opStart (m.chan c) o <;> rfl

theorem halt_chan {su : Setup} {m m' : Machine} {c : Ch} (h : m.halt su c = some m') :
    ∃ e, DwEdma.step su.chip (m.chan c) (.finish .done) = some e ∧
      m'.chan = Function.update m.chan c e := by
  unfold Machine.halt at h
  split at h
  · obtain ⟨e,he,rfl⟩ := Option.map_eq_some_iff.mp h
    exact ⟨e,he,rfl⟩
  · contradiction

/-- The driver and its engine in a calm run. -/
structure Joined (w : Installation) (s : System) : Prop where
  calm : Calmed w.dev s.driver
  chan : ∀ c, s.machine.chan (hw c) = (s.driver.chans c).engine
  lane : ∀ c ∈ Set.range hw, Lane w.setup (Set.range hw) c s.machine

/-- The device side of the burst of a chunk. -/
theorem burst_near (way : Way) (dev buf len : ℕ) :
    (way.burst dev buf len).near way.dir = Set.Ico dev (dev + len) := by
  cases way <;> rfl

/-- The call that runs a transfer on a channel is accounted for there. -/
theorem Joined.at (h : Joined w s) {k : ℕ} {c : ChanId} {x : Xfer} (hx : s.driver.At k c x) :
    Driver.Accounted ⟨s.driver.chans c,some x⟩ ∧ x.Ready c.1 (s.driver.chans c) := by
  obtain ⟨o,ho,hacc,hready⟩ := h.calm.sessions c
  cases Driver.running_at ho hx
  exact ⟨hacc,hready⟩

/-- The burst of a prepared descriptor. -/
theorem Joined.prep (h : Joined w s) {k : ℕ} {c : ChanId} {x : Xfer} (hx : s.driver.At k c x)
    (hs : x.stage = .prep) {d : Desc}
    (hd : DwEdma.deviceTransfer w.setup.chip (s.machine.chan (hw c)).chan
      (s.machine.chan (hw c)).nextVd (Driver.slaveSingle c.1 (s.driver.chans c).dmaBuf
        (s.driver.chans c).dmaLen) = some d) :
    Execution.Cycled w.setup.mf d ∧
      ∀ b ∈ bursts d.chunk, b.Typed ∧ Disjoint (b.near (hw c).1) (w.setup.lists (Set.range hw)) := by
  obtain ⟨hacc,hready⟩ := h.at hx
  simp only [Xfer.Ready,hs] at hready
  obtain ⟨hfits,_,_,hconfig⟩ := hready
  obtain ⟨a,pos,_,_,hasks,hstop,_,hpos,hmax⟩ := h.calm.chunk hx
  have hwrap := hasks.loop.wrap
  have hend := hfits.stop
  rw [h.chan c,w.chip,hfits.len] at hd
  have hburst := Driver.prepSlaveSingle_burst w.plain hacc.clients.solo.room (by omega)
    (by omega) hconfig hd
  obtain ⟨_,_,hone,_⟩ := DwEdma.prepSlaveSingle_chunk hacc.clients.solo.room hd
  refine ⟨Execution.cycled_single hone _,?_⟩
  rw [hburst]
  intro b hb
  rw [List.mem_singleton.mp hb]
  refine ⟨?_,?_⟩
  · cases c.1 with
    | rx => exact ⟨by dsimp only [Way.burst]; omega,by dsimp only [Way.burst]; omega,
        by dsimp only [Way.burst]; omega⟩
    | tx => exact ⟨by dsimp only [Way.burst]; omega,by dsimp only [Way.burst]; omega,
        by dsimp only [Way.burst]; omega⟩
  · have hnear : ((c.1.burst x.devAddr (s.driver.chans c).dmaBuf x.len).near (hw c).1) = _ :=
      burst_near c.1 _ _ _
    rw [hnear]
    exact (h.calm.clear hx).mono_right w.reserved

theorem Joined.allowed (h : Joined w s) {l : Driver.Label} (hg : Calm s.driver l) {m : Move}
    (hm : engineMove s.driver l = some m) (n : ℕ) :
    Allowed w.setup (Set.range hw) (s.copies l n).machine m := by
  have hchan := (copies_machine s l n).1
  have hop : ∀ {c : ChanId} {o : Op}, DwEdma.Undisturbed (s.machine.chan (hw c)) o →
      (∀ x, o ≠ .prep x) →
      Allowed w.setup (Set.range hw) (s.copies l n).machine (.op (hw c) o) :=
    fun hund hno => ⟨⟨_,rfl⟩,hund,fun x d ho => absurd ho (hno x)⟩
  cases l with
  | enter _ _ _ _ _ => contradiction
  | tasklet c => contradiction
  | interrupt c =>
    cases hm
    exact hop trivial nofun
  | finish c irq =>
    cases irq with
    | done =>
      cases hm
      exact ⟨_,rfl⟩
    | abort =>
      have hirq : DwEdma.Irq.abort = .done := hg.2
      contradiction
  | run k ch =>
    simp only [engineMove] at hm
    split at hm
    · rename_i c x hp
      obtain ⟨a,ha,hphase⟩ := Option.map_eq_some_iff.mp hp
      have hx : s.driver.At k c x := ⟨a,ha,hphase⟩
      obtain ⟨o,ho,rfl⟩ := Option.map_eq_some_iff.mp hm
      cases hs : x.stage <;> simp only [xferOp,hs] at ho
      case config =>
        cases ho
        exact hop trivial nofun
      case prep =>
        split at ho
        · cases ho
          refine ⟨⟨_,rfl⟩,trivial,?_⟩
          rintro y d ⟨⟩ hd
          rw [hchan] at hd
          exact h.prep hx hs hd
        · contradiction
      case submit =>
        cases ho
        exact hop trivial nofun
      case issue =>
        cases ho
        exact hop trivial nofun
      case terminate =>
        have hm := (h.at hx).1.stage x rfl
        rw [hs] at hm
        exact hm.elim
      all_goals contradiction
    · contradiction

theorem lanes_copies (h : ∀ c ∈ Set.range hw, Lane w.setup (Set.range hw) c s.machine)
    (l : Driver.Label) (n : ℕ) :
    ∀ c ∈ Set.range hw, Lane w.setup (Set.range hw) c (s.copies l n).machine := by
  obtain ⟨hchan,hregs,hmoved,hnear,_⟩ := copies_machine s l n
  intro c hc
  refine (h c hc).frame w.laid hc (by rw [hchan]) ?_ ?_ ?_ (fun _ _ => by rw [hnear])
  · unfold Machine.movedBy
    rw [hmoved]
  · unfold Machine.llp
    rw [hregs]
  · unfold Machine.cycle
    rw [hregs]

/-- What a step of the driver does on the side of the engine. -/
theorem follow_joined (h : Joined w s) {l : Driver.Label} {n : ℕ} (hg : Calm s.driver l)
    {d : Driver.State} (hd : Driver.step w.dev s.driver l = some d) {m : Machine}
    (hm : follow w.setup (s.copies l n).machine (engineMove s.driver l) = some m) :
    (∀ c ∈ Set.range hw, Lane w.setup (Set.range hw) c m) ∧ m.moved = s.machine.moved ∧
      (s.copies l n).machine.bus.Agrees (w.setup.lists (Set.range hw)) m.bus := by
  have hlanes := lanes_copies h.lane l n
  obtain ⟨_,_,hmoved,_⟩ := copies_machine s l n
  cases hmv : engineMove s.driver l with
  | none =>
    rw [hmv] at hm
    cases hm
    exact ⟨hlanes,hmoved,.refl _ _⟩
  | some mv =>
    rw [hmv] at hm
    have hallowed := h.allowed hg hmv n
    rw [← hmoved]
    cases mv with
    | op c o => exact Execution.lanes_operate hlanes w.laid hallowed hm
    | element c =>
      have hdrives := step_drives hd
      rw [hmv] at hdrives
      cases hdrives
    | halt c => exact Execution.lanes_halt hlanes w.laid hallowed hm

theorem follow_chan (h : Joined w s) {l : Driver.Label} {n : ℕ} {d : Driver.State}
    (hd : Driver.step w.dev s.driver l = some d) {m : Machine}
    (hm : follow w.setup (s.copies l n).machine (engineMove s.driver l) = some m) (c : ChanId) :
    m.chan (hw c) = (d.chans c).engine := by
  obtain ⟨hchan,_⟩ := copies_machine s l n
  -- the engine of the channel of the move, and of another one
  have hput : ∀ {e : ChanId} {o : Op}, (∃ f, DwEdma.step w.setup.chip
      ((s.copies l n).machine.chan (hw e)) o = some f ∧
        m.chan = Function.update (s.copies l n).machine.chan (hw e) f) →
      DwEdma.step w.dev.chip (s.driver.chans e).engine o = some (d.chans e).engine →
      (∀ f, f ≠ e → (d.chans f).engine = (s.driver.chans f).engine) →
      m.chan (hw c) = (d.chans c).engine := by
    rintro e o ⟨f,hf,hmc⟩ ho hothers
    rw [hchan,h.chan e,w.chip,ho] at hf
    rw [hmc,hchan]
    by_cases hce : c = e
    · rw [hce,Function.update_self]
      exact (Option.some.inj hf).symm
    · rw [Function.update_of_ne fun heq => hce (hw_injective heq),h.chan c,hothers c hce]
  have hdrives := step_drives hd
  generalize engineMove s.driver l = mv at hm hdrives
  cases hdrives with
  | none hsame =>
    cases hm
    rw [hchan,h.chan c,hsame c]
  | op ho hstep hothers => exact hput (operate_chan hm) hstep hothers
  | halt hstep hothers => exact hput (halt_chan hm) hstep hothers

theorem step_joined {l : Label} (h : Joined w s) (hg : CalmStep s l) (he : step w s l = some t) :
    Joined w t := by
  cases l with
  | driver l n =>
    obtain ⟨hd,hm,_⟩ := step_driver he
    exact ⟨Driver.step_calmed w.plain h.calm hg hd,follow_chan h hd hm,(follow_joined h hg hd hm).1⟩
  | element c =>
    obtain ⟨m,hm,rfl⟩ := step_element he
    obtain ⟨_,_,_,b,_,hb⟩ := Execution.element_some hm
    refine ⟨h.calm,fun e => ?_,Execution.lanes_element h.lane w.laid ⟨c,rfl⟩ hm⟩
    rw [hb]
    exact h.chan e

theorem joined_init (w : Installation) (regs : Registers.RegFile) (bus : Bus)
    (tmp user : ℕ → Memory) : Joined w (System.init w regs bus tmp user) where
  calm := Driver.calmed_init w.dev
  chan c := by
    change DwEdma.State.init _ _ (w.setup.llMax (hw c)) = DwEdma.State.init _ _ (w.dev.llMax c)
    rw [w.llMax c]
    rfl
  lane c _ := Execution.lane_init regs bus

end AkidaEdma.DataPath
