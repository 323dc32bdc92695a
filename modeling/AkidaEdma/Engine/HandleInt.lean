import AkidaEdma.Engine.Registers
import AkidaEdma.Library.Latch
import AkidaEdma.Library.Transition

/-! # The interrupt handlers of both cores

`handle_int` of the v0 and of the HDMA core by the accesses they make to the registers, any
number of vectors beside each other, each with at most one invocation at a time, and the
hardware, which sets a bit of a status register at any time. A write to the clear register
clears the bits that are set in the value.
-/
namespace AkidaEdma.HandleInt
open AkidaEdma.DwEdma AkidaEdma.V0Core AkidaEdma.Registers Transition

/-- The direction and the number of a channel. -/
abbrev HwChan := Dir × Fin 8

/-- What the handlers read of `struct dw_edma`. Probing bounds the counts by
`EDMA_MAX_WR_CH` and `EDMA_MAX_RD_CH`. -/
structure Dw where
  core : Core
  wrChCnt : ℕ
  rdChCnt : ℕ
  wr_le : wrChCnt ≤ 8
  rd_le : rdChCnt ≤ 8

/-- `dir` and `id` of `dw->chan[i]` as `dw_edma_channel_setup` fills them in. -/
def Dw.chan (dw : Dw) (i : ℕ) : HwChan :=
  if i < dw.wrChCnt then (.write,⟨i % 8,Nat.mod_lt _ (by decide)⟩)
  else (.read,⟨(i - dw.wrChCnt) % 8,Nat.mod_lt _ (by decide)⟩)

/-- `total` of `handle_int`. -/
def Dw.total (dw : Dw) : Dir → ℕ
  | .write => dw.wrChCnt
  | .read => dw.rdChCnt

/-- `off` of `handle_int`. -/
def Dw.off (dw : Dw) : Dir → ℕ
  | .write => 0
  | .read => dw.wrChCnt

/-- The masks of `struct dw_edma_irq`. -/
structure DwIrq where
  wrMask : Word
  rdMask : Word
  deriving DecidableEq, Repr

/-- `mask` of `handle_int`. -/
def DwIrq.mask (irq : DwIrq) : Dir → Word
  | .write => irq.wrMask
  | .read => irq.rdMask

/-- `dw_edma_interrupt_write`, `_read` and `_common`. -/
inductive Handler | write | read | common
  deriving DecidableEq, Repr

/-- The directions that a handler passes to `handle_int`, in order. -/
def Handler.dirs : Handler → List Dir
  | .write => [.write]
  | .read => [.read]
  | .common => [.write,.read]

/-- The interrupt vectors with their handlers. No channel has two of them. -/
structure Vectors where
  handler : ℕ → Handler
  irq : ℕ → DwIrq
  disjoint : ∀ v w dir i, ((irq v).mask dir).getLsbD i = true →
    ((irq w).mask dir).getLsbD i = true → v = w

/-- The positions of `for_each_set_bit`. -/
def forEachSetBit (val : Word) (size : ℕ) : List (Fin 8) :=
  (List.finRange 8).filter fun pos => decide (pos.val < size) && val.getLsbD pos

/-! ## The registers -/

def INT_STAT : ℕ := 0x84

/-- `int_status` of the direction, or `int_stat` of the channel. -/
def statReg : Core → HwChan → ℕ
  | .edmaV0, c => intStatus c.1
  | .hdmaV0, c => hdmaV0ChRegs (dirVal c.1) c.2 + INT_STAT

/-- What the functions `clear_done_int` and `clear_abort_int` of a core write for a channel,
which is how the hardware shows the interrupt. -/
def intBits : Core → Irq → Fin 8 → Word
  | .edmaV0, .done, id => doneBit id
  | .edmaV0, .abort, id => abortBit id
  | .hdmaV0, .done, _ => HDMA_V0_STOP_INT_MASK
  | .hdmaV0, .abort, _ => HDMA_V0_ABORT_INT_MASK

/-- The hardware sets an interrupt. -/
def setInt (core : Core) (c : HwChan) (k : Irq) (word : ℕ → Word) : ℕ → Word :=
  Function.update word (statReg core c) (word (statReg core c) ||| intBits core k c.2)

/-- A write to `int_clear`. -/
def clearInt (core : Core) (c : HwChan) (k : Irq) (word : ℕ → Word) : ℕ → Word :=
  Function.update word (statReg core c) (word (statReg core c) &&& ~~~intBits core k c.2)

/-- `FIELD_GET` of `dw_edma_v0_core_status_done_int` and `_abort_int`. -/
def statusField : Irq → Word → Word
  | .done, w => w &&& 0xff#32
  | .abort, w => (w &&& 0xff0000#32) >>> 16

/-- The reads of a handler: of `int_status` by the v0 core, of `int_stat` by the HDMA core. -/
inductive Read
  | status (k : Irq) (dir : Dir)
  | stat (c : HwChan)
  deriving DecidableEq, Repr

/-- The reads of `dw_edma_v0_core_handle_int`. -/
def edmaV0HandleInt (dir : Dir) : List Read := [.status .done dir,.status .abort dir]

/-- The reads of `dw_hdma_v0_core_handle_int`, one in each round of its loop. -/
def hdmaV0HandleInt (dw : Dw) (irq : DwIrq) (dir : Dir) : List Read :=
  (forEachSetBit (irq.mask dir) (dw.total dir)).map fun pos : Fin 8 =>
    .stat (dw.chan (pos + dw.off dir))

/-- `dw_edma_core_handle_int`. -/
def Dw.handleInt (dw : Dw) (irq : DwIrq) (dir : Dir) : List Read :=
  match dw.core with
  | .edmaV0 => edmaV0HandleInt dir
  | .hdmaV0 => hdmaV0HandleInt dw irq dir

/-- What is cleared and called back after a read, in order. -/
def Dw.found (dw : Dw) (irq : DwIrq) (word : ℕ → Word) : Read → List (HwChan × Irq)
  | .status k dir =>
    let val := statusField k (word (intStatus dir)) &&& irq.mask dir
    (forEachSetBit val (dw.total dir)).map fun pos : Fin 8 => (dw.chan (pos + dw.off dir),k)
  | .stat c =>
    let val := word (statReg .hdmaV0 c)
    (if val &&& HDMA_V0_STOP_INT_MASK ≠ 0#32 then [(c,.done)] else []) ++
      (if val &&& HDMA_V0_ABORT_INT_MASK ≠ 0#32 then [(c,.abort)] else [])

/-! ## The system -/

/-- A running invocation: the callback that is next if its bit was cleared, what else the last
read found, and the reads to come; `handled` is the `IRQ_HANDLED` of its result. It ran `ran`
callbacks, which nothing in the code reads. -/
structure Invocation where
  calling : Option (HwChan × Irq)
  found : List (HwChan × Irq)
  reads : List Read
  handled : Bool
  ran : ℕ
  deriving DecidableEq, Repr

/-- `busy` channels have a chunk that did not end yet. The events that were raised and the
callbacks that were run are counted for each channel. -/
structure State where
  word : ℕ → Word
  busy : HwChan → Bool
  raised : HwChan → Irq → ℕ
  called : HwChan → Irq → ℕ
  calls : ℕ → Option Invocation

def State.init : State :=
  ⟨fun _ => 0#32,fun _ => false,fun _ _ => 0,fun _ _ => 0,fun _ => none⟩

inductive Label
  | raise (c : HwChan) (k : Irq)
  | start (c : HwChan)
  | irq (v : ℕ)
  | run (v : ℕ) (again : Bool)
  deriving DecidableEq, Repr

/-- The invocation of a vector that has just begun. -/
def Vectors.enter (vs : Vectors) (dw : Dw) (v : ℕ) : Invocation :=
  ⟨none,[],(vs.handler v).dirs.flatMap (dw.handleInt (vs.irq v)),false,0⟩

def State.setCall (s : State) (v : ℕ) (i : Option Invocation) : State :=
  { s with calls := Function.update s.calls v i }

/-- The next step of an invocation; `again` tells if the callback starts the next chunk. -/
def State.run (dw : Dw) (vs : Vectors) (s : State) (v : ℕ) (i : Invocation) (again : Bool) :
    State :=
  match i.calling, i.found, i.reads with
  | some (c,k), _, _ =>
    { s with
      busy := Function.update s.busy c (s.busy c || again)
      called := Function.update s.called c (Latch.bump (s.called c) k) }.setCall v
        (some { i with calling := none, handled := true, ran := i.ran + 1 })
  | none, (c,k) :: rest, _ =>
    { s with word := clearInt dw.core c k s.word }.setCall v
      (some { i with calling := some (c,k), found := rest })
  | none, [], r :: reads =>
    s.setCall v (some { i with found := dw.found (vs.irq v) s.word r, reads := reads })
  | none, [], [] => s.setCall v none

/-- A chunk is started from elsewhere only on a channel with no event to come or to be
served. -/
def step (dw : Dw) (vs : Vectors) (s : State) : Label → Option State
  | .raise c k => if s.busy c then some { s with
      word := setInt dw.core c k s.word
      busy := Function.update s.busy c false
      raised := Function.update s.raised c (Latch.bump (s.raised c) k) } else none
  | .start c =>
    if c.2.val < dw.total c.1 ∧ s.busy c = false ∧ s.raised c .done = s.called c .done ∧
        s.raised c .abort = s.called c .abort then
      some { s with busy := Function.update s.busy c true }
    else none
  | .irq v =>
    match s.calls v with
    | none => some (s.setCall v (some (vs.enter dw v)))
    | some _ => none
  | .run v again => (s.calls v).map fun i => s.run dw vs v i again

/-! ## The bits of an interrupt -/

/-- The position of an interrupt in its status register. -/
def statBit : Core → Irq → Fin 8 → ℕ
  | .edmaV0, .done, id => id
  | .edmaV0, .abort, id => 16 + id
  | .hdmaV0, .done, _ => 0
  | .hdmaV0, .abort, _ => 2

def pending (core : Core) (word : ℕ → Word) (c : HwChan) (k : Irq) : Bool :=
  (word (statReg core c)).getLsbD (statBit core k c.2)

theorem statBit_lt (core : Core) (k : Irq) (id : Fin 8) : statBit core k id < 32 := by
  cases core <;> cases k <;> simp only [statBit] <;> omega

theorem intBits_getLsbD (core : Core) (k : Irq) (id : Fin 8) {i : ℕ} (hi : i < 32) :
    (intBits core k id).getLsbD i = decide (i = statBit core k id) := by
  have hstop : ∀ i : Fin 32, HDMA_V0_STOP_INT_MASK.getLsbD i = decide (i.val = 0) := by decide
  have habort : ∀ i : Fin 32, HDMA_V0_ABORT_INT_MASK.getLsbD i = decide (i.val = 2) := by decide
  cases core <;> cases k
  · exact doneBit_getLsbD id ⟨i,hi⟩
  · exact abortBit_getLsbD id ⟨i,hi⟩
  · exact hstop ⟨i,hi⟩
  · exact habort ⟨i,hi⟩

/-- No two interrupts share a bit. -/
theorem place_inj {core : Core} {c e : HwChan} {j k : Irq} (hreg : statReg core e = statReg core c)
    (hbit : statBit core j e.2 = statBit core k c.2) : (e,j) = (c,k) := by
  cases core with
  | edmaV0 =>
    obtain ⟨dir,id⟩ := c
    obtain ⟨dir',id'⟩ := e
    have hdir : dir' = dir := by
      cases dir <;> cases dir' <;> first | rfl | exact absurd hreg (by simp [statReg,intStatus,rwReg])
    cases j <;> cases k <;> simp only [statBit] at hbit <;>
      simp only [hdir,Prod.mk.injEq,true_and,and_true,reduceCtorEq,and_false] <;> omega
  | hdmaV0 =>
    have hjk : j = k := by
      cases j <;> cases k <;> first | rfl | exact absurd hbit (by simp [statBit])
    obtain ⟨hdir,hid,_⟩ := hdmaV0ChRegs_inj (by decide) (by decide) hreg
    rw [hjk,Prod.ext hdir (Fin.ext hid)]

theorem setInt_pending (core : Core) (c e : HwChan) (k j : Irq) (word : ℕ → Word) :
    pending core (setInt core c k word) e j = true ↔
      pending core word e j = true ∨ (e,j) = (c,k) := by
  unfold pending setInt
  by_cases hreg : statReg core e = statReg core c
  · rw [hreg,Function.update_self,BitVec.getLsbD_or,intBits_getLsbD _ _ _ (statBit_lt core j e.2)]
    simp only [Bool.or_eq_true,decide_eq_true_eq]
    refine or_congr_right ⟨place_inj hreg,?_⟩
    rintro ⟨⟩
    rfl
  · rw [Function.update_of_ne hreg]
    have hne : (e,j) ≠ (c,k) := by
      rintro ⟨⟩
      exact hreg rfl
    simp [hne]

theorem clearInt_pending (core : Core) (c e : HwChan) (k j : Irq) (word : ℕ → Word) :
    pending core (clearInt core c k word) e j = true ↔
      pending core word e j = true ∧ (e,j) ≠ (c,k) := by
  unfold pending clearInt
  by_cases hreg : statReg core e = statReg core c
  · rw [hreg,Function.update_self,BitVec.getLsbD_and,BitVec.getLsbD_not,
      intBits_getLsbD _ _ _ (statBit_lt core j e.2)]
    simp only [statBit_lt,decide_true,Bool.true_and,Bool.and_eq_true,Bool.not_eq_true',
      decide_eq_false_iff_not]
    refine and_congr_right fun _ => not_congr ⟨place_inj hreg,?_⟩
    rintro ⟨⟩
    rfl
  · rw [Function.update_of_ne hreg]
    have hne : (e,j) ≠ (c,k) := by
      rintro ⟨⟩
      exact hreg rfl
    simp [hne]

/-! ## What a read finds -/

theorem mem_forEachSetBit {val : Word} {size : ℕ} {pos : Fin 8} :
    pos ∈ forEachSetBit val size ↔ pos.val < size ∧ val.getLsbD pos = true := by
  simp [forEachSetBit]

/-- `pos + off` is the index of channel `pos` of the direction. -/
theorem chan_off {dw : Dw} {dir : Dir} {pos : Fin 8} (h : pos.val < dw.total dir) :
    dw.chan (pos + dw.off dir) = (dir,pos) := by
  have hmod : pos.val % 8 = pos.val := Nat.mod_eq_of_lt pos.isLt
  cases dir with
  | write =>
    have hlt : pos.val < dw.wrChCnt := h
    simp only [Dw.chan,Dw.off,Nat.add_zero,hlt,if_true,Prod.mk.injEq,true_and]
    exact Fin.ext hmod
  | read =>
    have hge : ¬ pos.val + dw.wrChCnt < dw.wrChCnt := by omega
    simp only [Dw.chan,Dw.off,hge,if_false,Nat.add_sub_cancel,Prod.mk.injEq,true_and]
    exact Fin.ext hmod

theorem statusField_getLsbD (k : Irq) (w : Word) (pos : Fin 8) :
    (statusField k w).getLsbD pos = w.getLsbD (statBit .edmaV0 k pos) := by
  have hdone : ∀ pos : Fin 8, (0xff#32).getLsbD pos = true := by decide
  have habort : ∀ pos : Fin 8, (0xff0000#32).getLsbD (16 + pos) = true := by decide
  cases k with
  | done => simp [statusField,statBit,hdone]
  | abort => simp [statusField,statBit,habort]

/-- Vector `v` serves the channel. -/
def Vectors.Covers (vs : Vectors) (dw : Dw) (v : ℕ) (c : HwChan) : Prop :=
  c.1 ∈ (vs.handler v).dirs ∧ c.2.val < dw.total c.1 ∧
    ((vs.irq v).mask c.1).getLsbD c.2 = true

theorem Vectors.Covers.unique {vs : Vectors} {dw : Dw} {v w : ℕ} {c : HwChan} (hv : vs.Covers dw v c)
    (hw : vs.Covers dw w c) : v = w := vs.disjoint v w c.1 c.2 hv.2.2 hw.2.2

/-- The reads of an invocation are those of its core, and of its channels. -/
theorem reads_cases {vs : Vectors} {dw : Dw} {v : ℕ} {r : Read} (h : r ∈ (vs.enter dw v).reads) :
    (dw.core = .edmaV0 ∧ ∃ k dir, dir ∈ (vs.handler v).dirs ∧ r = .status k dir) ∨
    (dw.core = .hdmaV0 ∧ ∃ c, vs.Covers dw v c ∧ r = .stat c) := by
  obtain ⟨dir,hdir,hr⟩ := List.mem_flatMap.mp h
  unfold Dw.handleInt at hr
  split at hr
  · rename_i hcore
    refine Or.inl ⟨hcore,?_⟩
    rcases List.mem_pair.mp hr with rfl | rfl
    · exact ⟨_,dir,hdir,rfl⟩
    · exact ⟨_,dir,hdir,rfl⟩
  · rename_i hcore
    obtain ⟨pos,hpos,rfl⟩ := List.mem_map.mp hr
    obtain ⟨hlt,hmask⟩ := mem_forEachSetBit.mp hpos
    exact Or.inr ⟨hcore,(dir,pos),⟨hdir,hlt,hmask⟩,by rw [chan_off hlt]⟩

/-- A value that is not zero under the mask of an interrupt has its bit. -/
theorem getLsbD_of_and_ne {core : Core} {k : Irq} {id : Fin 8} {val : Word}
    (h : val &&& intBits core k id ≠ 0#32) : val.getLsbD (statBit core k id) = true := by
  by_contra hbit
  refine h (BitVec.eq_of_getLsbD_eq fun i hi => ?_)
  rw [BitVec.getLsbD_and,intBits_getLsbD _ _ _ hi]
  by_cases he : i = statBit core k id
  · rw [he]
    simpa using hbit
  · simp [he]

/-- What a read finds are pending interrupts of the vector's channels, each once. -/
theorem found_sound {vs : Vectors} {dw : Dw} {v : ℕ} {r : Read} (word : ℕ → Word)
    (h : r ∈ (vs.enter dw v).reads) : (dw.found (vs.irq v) word r).Nodup ∧
      ∀ x ∈ dw.found (vs.irq v) word r,
        pending dw.core word x.1 x.2 = true ∧ vs.Covers dw v x.1 := by
  rcases reads_cases h with ⟨hcore,k,dir,hdir,rfl⟩ | ⟨hcore,c,hc,rfl⟩
  · refine ⟨?_,?_⟩
    · refine List.Nodup.map_on ?_ ((List.nodup_finRange 8).filter _)
      intro pos hpos pos' hpos' he
      rw [chan_off (mem_forEachSetBit.mp hpos).1,chan_off (mem_forEachSetBit.mp hpos').1] at he
      exact congrArg (fun x => x.1.2) he
    · intro x hx
      obtain ⟨pos,hpos,rfl⟩ := List.mem_map.mp hx
      obtain ⟨hlt,hval⟩ := mem_forEachSetBit.mp hpos
      rw [BitVec.getLsbD_and,statusField_getLsbD,Bool.and_eq_true] at hval
      rw [chan_off hlt,hcore]
      exact ⟨hval.1,hdir,hlt,hval.2⟩
  · refine ⟨?_,?_⟩
    · simp only [Dw.found]
      split_ifs <;> simp
    · intro x hx
      rw [hcore]
      rcases List.mem_append.mp hx with hx | hx
      · split at hx
        · rename_i hval
          cases List.mem_singleton.mp hx
          exact ⟨getLsbD_of_and_ne (show _ &&& intBits .hdmaV0 .done c.2 ≠ 0#32 from hval),hc⟩
        · contradiction
      · split at hx
        · rename_i hval
          cases List.mem_singleton.mp hx
          exact ⟨getLsbD_of_and_ne (show _ &&& intBits .hdmaV0 .abort c.2 ≠ 0#32 from hval),hc⟩
        · contradiction

theorem and_ne_of_getLsbD {core : Core} {k : Irq} {id : Fin 8} {val : Word}
    (h : val.getLsbD (statBit core k id) = true) : val &&& intBits core k id ≠ 0#32 := by
  intro hzero
  have hbit : (val &&& intBits core k id).getLsbD (statBit core k id) = true := by
    rw [BitVec.getLsbD_and,h,intBits_getLsbD _ _ _ (statBit_lt core k id)]
    simp
  rw [hzero] at hbit
  simp at hbit

/-- An invocation has a read that finds the interrupt of a channel of its vector if it is
pending then. -/
theorem read_finds {vs : Vectors} {dw : Dw} {v : ℕ} {c : HwChan} (hc : vs.Covers dw v c)
    (k : Irq) : ∃ r ∈ (vs.enter dw v).reads, ∀ word,
      pending dw.core word c k = true → (c,k) ∈ dw.found (vs.irq v) word r := by
  obtain ⟨dir,id⟩ := c
  obtain ⟨hdir,hlt,hmask⟩ := hc
  have hread : ∀ r, r ∈ dw.handleInt (vs.irq v) dir → r ∈ (vs.enter dw v).reads :=
    fun r hr => List.mem_flatMap.mpr ⟨dir,hdir,hr⟩
  cases hcore : dw.core with
  | edmaV0 =>
    refine ⟨.status k dir,hread _ ?_,fun word hpending => ?_⟩
    · simp only [Dw.handleInt,hcore,edmaV0HandleInt]
      cases k <;> simp
    · refine List.mem_map.mpr ⟨id,mem_forEachSetBit.mpr ⟨hlt,?_⟩,by rw [chan_off hlt]⟩
      rw [BitVec.getLsbD_and,statusField_getLsbD,Bool.and_eq_true]
      exact ⟨hpending,hmask⟩
  | hdmaV0 =>
    refine ⟨.stat (dir,id),hread _ ?_,fun word hpending => ?_⟩
    · simp only [Dw.handleInt,hcore,hdmaV0HandleInt]
      exact List.mem_map.mpr ⟨id,mem_forEachSetBit.mpr ⟨hlt,hmask⟩,by rw [chan_off hlt]⟩
    · have hval := and_ne_of_getLsbD hpending
      cases k with
      | done =>
        have hstop : word (statReg .hdmaV0 (dir,id)) &&& HDMA_V0_STOP_INT_MASK ≠ 0#32 := hval
        simp [Dw.found,hstop]
      | abort =>
        have habort : word (statReg .hdmaV0 (dir,id)) &&& HDMA_V0_ABORT_INT_MASK ≠ 0#32 := hval
        simp [Dw.found,habort]

end AkidaEdma.HandleInt
