import AkidaEdma.Engine.Build
import AkidaEdma.Engine.Run
import AkidaEdma.Library.LittleEndian
import Mathlib.Data.Int.Notation

/-! # The linked list of a chunk

`write_chunk` of both cores as the stores it makes into the region of the chunk, and the
list that the engine reads there. The element index and the down counter are unbounded here;
an `int` holds them for every list shorter than `2^31` elements, and no layout has room for a
longer one.
-/
namespace AkidaEdma.DwEdma
open LittleEndian

/-- `struct dw_edma_v0_lli`, `struct dw_edma_v0_llp` and the control bits of a core, or their
HDMA counterparts: the offsets of the fields and the size of an element. -/
structure Format where
  cb : BitVec 32
  tcb : BitVec 32
  llp : BitVec 32
  lie : BitVec 32
  rie : BitVec 32
  lliControl : ℕ
  lliTransferSize : ℕ
  lliSar : ℕ
  lliDar : ℕ
  lliSize : ℕ
  llpControl : ℕ
  llpLlp : ℕ
  deriving DecidableEq, Repr

/-- `enum dw_edma_control` and the structures of dw-edma-v0-regs.h. -/
def edmaV0Format : Format where
  cb := 1#32 <<< 0
  tcb := 1#32 <<< 1
  llp := 1#32 <<< 2
  lie := 1#32 <<< 3
  rie := 1#32 <<< 4
  lliControl := 0
  lliTransferSize := 4
  lliSar := 8
  lliDar := 16
  lliSize := 24
  llpControl := 0
  llpLlp := 8

/-- `enum dw_hdma_control` and the structures of dw-hdma-v0-regs.h. -/
def hdmaV0Format : Format where
  cb := 1#32 <<< 0
  tcb := 1#32 <<< 1
  llp := 1#32 <<< 2
  lie := 1#32 <<< 3
  rie := 1#32 <<< 4
  lliControl := 0
  lliTransferSize := 4
  lliSar := 8
  lliDar := 16
  lliSize := 24
  llpControl := 0
  llpLlp := 8

def writel (value addr : ℕ) : Memory → Memory := store addr 4 value

/-- The kernel's `lo_hi_writeq`. -/
def loHiWriteq (value addr : ℕ) (m : Memory) : Memory :=
  writel (value / 4294967296) (addr + 4) (writel value addr m)

/-- `writeq`, which `AKIDA_DW_EDMA_FORCE_32BIT` replaces. -/
def writeq (force32 : Bool) (value addr : ℕ) : Memory → Memory :=
  if force32 then loHiWriteq value addr else store addr 8 value

/-- `write_ll_data`. -/
def writeLlData (f : Format) (force32 : Bool) (chip : Chip) (chunk : Chunk) (i : ℕ)
    (control : BitVec 32) (size sar dar : ℕ) (m : Memory) : Memory :=
  let lli := chunk.llRegion.vaddr + i * f.lliSize
  if chip.isLocal then
    let m := store (lli + f.lliTransferSize) 4 size m
    let m := store (lli + f.lliSar) 8 sar m
    let m := store (lli + f.lliDar) 8 dar m
    store (lli + f.lliControl) 4 control.toNat m
  else
    let m := writel size (lli + f.lliTransferSize) m
    let m := writeq force32 sar (lli + f.lliSar) m
    let m := writeq force32 dar (lli + f.lliDar) m
    writel control.toNat (lli + f.lliControl) m

/-- `write_ll_link`. -/
def writeLlLink (f : Format) (force32 : Bool) (chip : Chip) (chunk : Chunk) (i : ℕ)
    (control : BitVec 32) (pointer : ℕ) (m : Memory) : Memory :=
  let llp := chunk.llRegion.vaddr + i * f.lliSize
  if chip.isLocal then
    let m := store (llp + f.llpLlp) 8 pointer m
    store (llp + f.llpControl) 4 control.toNat m
  else
    let m := writeq force32 pointer (llp + f.llpLlp) m
    writel control.toNat (llp + f.llpControl) m

/-- The variables of the loop of `write_chunk`, with the memory it writes. -/
structure Fill where
  i : ℕ
  j : ℤ
  control : BitVec 32
  memory : Memory

/-- One iteration of `list_for_each_entry`. -/
def Fill.next (f : Format) (force32 : Bool) (chip : Chip) (chunk : Chunk) (s : Fill)
    (child : Burst) : Fill :=
  let j := s.j - 1
  let control := if j = 0 then s.control ||| f.lie else s.control
  let control := if j = 0 ∧ chip.isLocal = false then control ||| f.rie else control
  { i := s.i + 1
    j := j
    control := control
    memory := writeLlData f force32 chip chunk s.i control child.sz child.sar child.dar s.memory }

def writeChunk (f : Format) (force32 : Bool) (chip : Chip) (chunk : Chunk) (m : Memory) :
    Memory :=
  let control := if chunk.cb then f.cb else 0#32
  let s := chunk.burst.foldl (Fill.next f force32 chip chunk) ⟨0,chunk.burstsAlloc,control,m⟩
  let control := f.llp ||| f.tcb
  let control := if chunk.cb then control else control ||| f.cb
  writeLlLink f force32 chip chunk s.i control chunk.llRegion.paddr s.memory

/-- `dw_edma_v0_core_write_chunk`. -/
def edmaV0WriteChunk : Bool → Chip → Chunk → Memory → Memory := writeChunk edmaV0Format

/-- `dw_hdma_v0_core_write_chunk`. -/
def hdmaV0WriteChunk : Bool → Chip → Chunk → Memory → Memory := writeChunk hdmaV0Format

inductive Core | edmaV0 | hdmaV0
  deriving DecidableEq, Repr

def Core.writeChunk : Core → Bool → Chip → Chunk → Memory → Memory
  | .edmaV0 => edmaV0WriteChunk
  | .hdmaV0 => hdmaV0WriteChunk

/-! ## What the engine reads -/

/-- A data element. -/
structure Element where
  control : BitVec 32
  burst : Burst
  deriving DecidableEq, Repr

/-- A link element. -/
structure Link where
  control : BitVec 32
  pointer : ℕ
  deriving DecidableEq, Repr

def loadControl (a : ℕ) (m : Memory) : BitVec 32 := BitVec.ofNat 32 (load a 4 m)

def loadElement (a : ℕ) (m : Memory) : Element :=
  ⟨loadControl a m,⟨load (a+8) 8 m,load (a+16) 8 m,load (a+4) 4 m⟩⟩

def loadLink (a : ℕ) (m : Memory) : Link := ⟨loadControl a m,load (a+8) 8 m⟩

/-- The walk of the engine over elements of 24 bytes, until one has its LLP bit set. -/
def decode (m : Memory) : ℕ → ℕ → Option (List Element × Link)
  | 0, _ => none
  | fuel+1, a =>
    if (loadControl a m).getLsbD 2 then some ([],loadLink a m)
    else (decode m fuel (a + 24)).map fun r => (loadElement a m :: r.1,r.2)

/-! ## What the stores amount to -/

def storeElement (a : ℕ) (e : Element) (m : Memory) : Memory :=
  store a 4 e.control.toNat (store (a+16) 8 e.burst.dar
    (store (a+8) 8 e.burst.sar (store (a+4) 4 e.burst.sz m)))

def storeLink (a : ℕ) (l : Link) (m : Memory) : Memory :=
  store a 4 l.control.toNat (store (a+8) 8 l.pointer m)

def storeElements : ℕ → List Element → Memory → Memory
  | _, [], m => m
  | a, e :: es, m => storeElements (a+24) es (storeElement a e m)

/-- The values fit the `u32` and `u64` that hold them. -/
structure Burst.Typed (b : Burst) : Prop where
  sz : b.sz < 4294967296
  sar : b.sar < 18446744073709551616
  dar : b.dar < 18446744073709551616

theorem writeq_eq (force32 : Bool) (value addr : ℕ) :
    writeq force32 value addr = store addr 8 value := by
  cases force32 with
  | false => rfl
  | true =>
    funext m
    exact store_split addr 4 4 value m

/-- The two access paths make the same stores. -/
theorem writeLlData_eq (force32 : Bool) (chip : Chip) (chunk : Chunk) (i : ℕ)
    (control : BitVec 32) (b : Burst) (m : Memory) :
    writeLlData edmaV0Format force32 chip chunk i control b.sz b.sar b.dar m =
      storeElement (chunk.llRegion.vaddr + i * 24) ⟨control,b⟩ m := by
  unfold writeLlData
  split
  · rfl
  · simp only [writeq_eq]
    rfl

theorem writeLlLink_eq (force32 : Bool) (chip : Chip) (chunk : Chunk) (i : ℕ)
    (control : BitVec 32) (pointer : ℕ) (m : Memory) :
    writeLlLink edmaV0Format force32 chip chunk i control pointer m =
      storeLink (chunk.llRegion.vaddr + i * 24) ⟨control,pointer⟩ m := by
  unfold writeLlLink
  split
  · rfl
  · simp only [writeq_eq]
    rfl

theorem loadControl_store (a : ℕ) (c : BitVec 32) (m : Memory) :
    loadControl a (store a 4 c.toNat m) = c := by
  have hlt : c.toNat < 256^4 := c.isLt
  rw [loadControl,load_store_of_lt m hlt,BitVec.ofNat_toNat,BitVec.setWidth_eq]

theorem loadElement_storeElement (a : ℕ) {e : Element} (h : e.burst.Typed) (m : Memory) :
    loadElement a (storeElement a e m) = e := by
  have hsar : load (a+8) 8 (storeElement a e m) = e.burst.sar := by
    rw [storeElement,load_store_apart _ (by omega),load_store_apart _ (by omega),
      load_store_of_lt _ h.sar]
  have hdar : load (a+16) 8 (storeElement a e m) = e.burst.dar := by
    rw [storeElement,load_store_apart _ (by omega),load_store_of_lt _ h.dar]
  have hsz : load (a+4) 4 (storeElement a e m) = e.burst.sz := by
    rw [storeElement,load_store_apart _ (by omega),load_store_apart _ (by omega),
      load_store_apart _ (by omega),load_store_of_lt _ h.sz]
  have hcontrol : loadControl a (storeElement a e m) = e.control := loadControl_store a _ _
  rw [loadElement,hsar,hdar,hsz,hcontrol]

theorem loadLink_storeLink (a : ℕ) {l : Link} (h : l.pointer < 18446744073709551616)
    (m : Memory) : loadLink a (storeLink a l m) = l := by
  have hpointer : load (a+8) 8 (storeLink a l m) = l.pointer := by
    rw [storeLink,load_store_apart _ (by omega),load_store_of_lt _ h]
  have hcontrol : loadControl a (storeLink a l m) = l.control := loadControl_store a _ _
  rw [loadLink,hpointer,hcontrol]

theorem storeElement_outside {a x : ℕ} (e : Element) (m : Memory) (h : x < a ∨ a + 24 ≤ x) :
    storeElement a e m x = m x := by
  rw [storeElement,store_outside _ (by omega),store_outside _ (by omega),
    store_outside _ (by omega),store_outside _ (by omega)]

theorem storeLink_outside {a x : ℕ} (l : Link) (m : Memory) (h : x < a ∨ a + 16 ≤ x) :
    storeLink a l m x = m x := by
  rw [storeLink,store_outside _ (by omega),store_outside _ (by omega)]

theorem storeElements_outside {a x : ℕ} (es : List Element) (m : Memory)
    (h : x < a ∨ a + 24 * es.length ≤ x) : storeElements a es m x = m x := by
  induction es generalizing a m with
  | nil => rfl
  | cons e es ih =>
    rw [List.length_cons] at h
    have hrest := ih (a := a + 24) (storeElement a e m) (by omega)
    rw [storeElements,hrest,storeElement_outside e m (by omega)]

theorem loadElement_congr {a : ℕ} {m m' : Memory} (h : ∀ x, a ≤ x → x < a + 24 → m' x = m x) :
    loadElement a m' = loadElement a m := by
  simp only [loadElement,loadControl]
  rw [load_congr (n := 4) (fun x _ _ => h x (by omega) (by omega)),
    load_congr (a := a + 8) (n := 8) (fun x _ _ => h x (by omega) (by omega)),
    load_congr (a := a + 16) (n := 8) (fun x _ _ => h x (by omega) (by omega)),
    load_congr (a := a + 4) (n := 4) (fun x _ _ => h x (by omega) (by omega))]

/-- A list ended by a link element is read back whatever lay in the memory before. -/
theorem decode_stored {l : Link} (hl : l.control.getLsbD 2 = true)
    (hp : l.pointer < 18446744073709551616) (es : List Element) :
    ∀ a fuel m, (∀ e ∈ es, e.burst.Typed ∧ e.control.getLsbD 2 = false) → es.length < fuel →
      decode (storeLink (a + 24 * es.length) l (storeElements a es m)) fuel a = some (es,l) := by
  induction es with
  | nil =>
    intro a fuel m _ hfuel
    obtain ⟨n,rfl⟩ := Nat.exists_eq_add_of_lt hfuel
    have hlink : loadLink a (storeLink a l m) = l := loadLink_storeLink a hp m
    have hcontrol : loadControl a (storeLink a l m) = l.control := loadControl_store a _ _
    simp only [List.length_nil,Nat.mul_zero,Nat.add_zero,storeElements,decode,hlink,hcontrol,hl,
      if_true]
  | cons e es ih =>
    intro a fuel m he hfuel
    rw [List.length_cons] at hfuel
    obtain ⟨n,rfl⟩ := Nat.exists_eq_add_of_lt hfuel
    obtain ⟨htyped,hdata⟩ := he e List.mem_cons_self
    let m' := storeLink (a + 24 * (e :: es).length) l (storeElements a (e :: es) m)
    have hm' : m' = storeLink (a + 24 + 24 * es.length) l
        (storeElements (a+24) es (storeElement a e m)) := by
      have haddr : a + 24 * (e :: es).length = a + 24 + 24 * es.length := by
        rw [List.length_cons]
        omega
      dsimp only [m']
      rw [haddr,storeElements]
    have hrest : decode m' (es.length + 1 + n) (a+24) = some (es,l) := by
      rw [hm']
      exact ih (a+24) _ _ (fun k hk => he k (List.mem_cons_of_mem _ hk)) (by omega)
    -- the stores after the element leave it alone
    have helement : loadElement a m' = e := by
      rw [← loadElement_storeElement a htyped m,hm']
      apply loadElement_congr
      intro x hlo hhi
      rw [storeLink_outside _ _ (by omega),storeElements_outside _ _ (by omega)]
    have hcontrol : loadControl a m' = e.control := congrArg Element.control helement
    change decode m' (es.length + 1 + n + 1) a = _
    simp only [decode,hcontrol,hdata,Bool.false_eq_true,if_false,hrest,helement,Option.map_some]

/-! ## What `write_chunk` stores -/

/-- The control word of a data element. -/
def dataControl (isLocal cb last : Bool) : BitVec 32 :=
  let control := if cb then edmaV0Format.cb else 0#32
  let control := if last then control ||| edmaV0Format.lie else control
  if last ∧ isLocal = false then control ||| edmaV0Format.rie else control

def linkControl (cb : Bool) : BitVec 32 :=
  let control := edmaV0Format.llp ||| edmaV0Format.tcb
  if cb then control else control ||| edmaV0Format.cb

def elements (isLocal cb : Bool) : List Burst → List Element
  | [] => []
  | b :: bs => ⟨dataControl isLocal cb bs.isEmpty,b⟩ :: elements isLocal cb bs

theorem elements_length (isLocal cb : Bool) (bs : List Burst) :
    (elements isLocal cb bs).length = bs.length := by
  induction bs with
  | nil => rfl
  | cons b bs ih => simp [elements,ih]

theorem elements_burst (isLocal cb : Bool) (bs : List Burst) :
    (elements isLocal cb bs).map Element.burst = bs := by
  induction bs with
  | nil => rfl
  | cons b bs ih => simp [elements,ih]

theorem elements_control {isLocal cb : Bool} {bs : List Burst} {k : ℕ} {e : Element}
    (h : (elements isLocal cb bs)[k]? = some e) :
    e.control = dataControl isLocal cb (k + 1 == bs.length) := by
  induction bs generalizing k with
  | nil => contradiction
  | cons b bs ih =>
    cases k with
    | zero =>
      cases h
      cases bs <;> simp
    | succ k =>
      rw [ih h,List.length_cons]
      simp

/-- The loop stores the elements; its down counter tells the last one apart. -/
theorem fill_foldl (force32 : Bool) (chip : Chip) (chunk : Chunk) (cb : Bool) (bs : List Burst) :
    ∀ s : Fill, s.j = bs.length → s.control = (if cb then edmaV0Format.cb else 0#32) →
      let s' := bs.foldl (Fill.next edmaV0Format force32 chip chunk) s
      s'.i = s.i + bs.length ∧ s'.memory = storeElements (chunk.llRegion.vaddr + s.i * 24)
        (elements chip.isLocal cb bs) s.memory := by
  induction bs with
  | nil => exact fun s _ _ => ⟨rfl,rfl⟩
  | cons b bs ih =>
    intro s hj hcontrol
    rw [List.length_cons] at hj
    let s' := Fill.next edmaV0Format force32 chip chunk s b
    have hj' : s'.j = bs.length := by
      change s.j - 1 = _
      omega
    have hlast : (s.j - 1 = 0) ↔ bs.isEmpty = true := by
      rw [List.isEmpty_iff_length_eq_zero]
      omega
    have hword : s'.control = dataControl chip.isLocal cb bs.isEmpty := by
      simp only [s',Fill.next,dataControl,hcontrol,hlast]
    have hmemory : s'.memory = storeElement (chunk.llRegion.vaddr + s.i * 24)
        ⟨dataControl chip.isLocal cb bs.isEmpty,b⟩ s.memory := by
      rw [← hword]
      exact writeLlData_eq force32 chip chunk s.i s'.control b s.memory
    have haddr : chunk.llRegion.vaddr + s'.i * 24 = chunk.llRegion.vaddr + s.i * 24 + 24 := by
      change chunk.llRegion.vaddr + (s.i + 1) * 24 = _
      omega
    cases bs with
    | nil => exact ⟨rfl,hmemory⟩
    | cons b' bs =>
      obtain ⟨hi,hm⟩ := ih s' hj' hword
      refine ⟨?_,?_⟩
      · have hi' : s'.i = s.i + 1 := rfl
        rw [List.foldl_cons,hi,hi',List.length_cons (a := b)]
        omega
      · rw [List.foldl_cons,hm,haddr,hmemory]
        rfl

/-- The index and the down counter of the loop, after `bs`. -/
theorem fill_counters (f : Format) (force32 : Bool) (chip : Chip) (chunk : Chunk) (bs : List Burst)
    (s : Fill) : (bs.foldl (Fill.next f force32 chip chunk) s).i = s.i + bs.length ∧
      (bs.foldl (Fill.next f force32 chip chunk) s).j = s.j - bs.length := by
  induction bs generalizing s with
  | nil => exact ⟨rfl,(Int.sub_zero s.j).symm⟩
  | cons b bs ih =>
    obtain ⟨hi,hj⟩ := ih (Fill.next f force32 chip chunk s b)
    have hi' : (Fill.next f force32 chip chunk s b).i = s.i + 1 := rfl
    have hj' : (Fill.next f force32 chip chunk s b).j = s.j - 1 := rfl
    rw [List.foldl_cons,hi,hj,hi',hj',List.length_cons]
    omega

theorem writeChunk_eq {chunk : Chunk} (halloc : chunk.burstsAlloc = chunk.burst.length)
    (core : Core) (force32 : Bool) (chip : Chip) (m : Memory) :
    core.writeChunk force32 chip chunk m =
      storeLink (chunk.llRegion.vaddr + 24 * chunk.burst.length)
        ⟨linkControl chunk.cb,chunk.llRegion.paddr⟩
        (storeElements chunk.llRegion.vaddr (elements chip.isLocal chunk.cb chunk.burst) m) := by
  have hcore : core.writeChunk = writeChunk edmaV0Format := by cases core <;> rfl
  obtain ⟨hi,hm⟩ := fill_foldl force32 chip chunk chunk.cb chunk.burst
    ⟨0,chunk.burstsAlloc,if chunk.cb then edmaV0Format.cb else 0#32,m⟩
    (by rw [halloc]) rfl
  rw [hcore,writeChunk,writeLlLink_eq,hi,hm]
  simp only [Nat.zero_mul,Nat.zero_add,Nat.add_zero,Nat.mul_comm,linkControl]

/-- Only the elements of the list and the link are written. -/
theorem writeChunk_outside {chunk : Chunk} (halloc : chunk.burstsAlloc = chunk.burst.length)
    (core : Core) (force32 : Bool) (chip : Chip) (m : Memory) {x : ℕ}
    (h : x < chunk.llRegion.vaddr ∨ chunk.llRegion.vaddr + 24 * chunk.burst.length + 16 ≤ x) :
    core.writeChunk force32 chip chunk m x = m x := by
  have hlen := elements_length chip.isLocal chunk.cb chunk.burst
  rw [writeChunk_eq halloc,storeLink_outside _ _ (by omega),storeElements_outside _ _ (by omega)]

/-- The bits of a list as they were read. -/
structure Linked (isLocal cb : Bool) (paddr : ℕ) (bs : List Burst) (es : List Element)
    (l : Link) : Prop where
  burst : es.map Element.burst = bs
  dataCb : ∀ e ∈ es, e.control.getLsbD 0 = cb
  dataTcb : ∀ e ∈ es, e.control.getLsbD 1 = false
  dataLlp : ∀ e ∈ es, e.control.getLsbD 2 = false
  lie : ∀ k e, es[k]? = some e → (e.control.getLsbD 3 = true ↔ k + 1 = bs.length)
  rie : ∀ k e, es[k]? = some e →
    (e.control.getLsbD 4 = true ↔ k + 1 = bs.length ∧ isLocal = false)
  linkCb : l.control.getLsbD 0 = !cb
  linkTcb : l.control.getLsbD 1 = true
  linkLlp : l.control.getLsbD 2 = true
  pointer : l.pointer = paddr

theorem dataControl_bits : ∀ isLocal cb last : Bool,
    (dataControl isLocal cb last).getLsbD 0 = cb ∧
    (dataControl isLocal cb last).getLsbD 1 = false ∧
    (dataControl isLocal cb last).getLsbD 2 = false ∧
    (dataControl isLocal cb last).getLsbD 3 = last ∧
    (dataControl isLocal cb last).getLsbD 4 = (last && !isLocal) := by
  decide

theorem linkControl_bits : ∀ cb : Bool, (linkControl cb).getLsbD 0 = !cb ∧
    (linkControl cb).getLsbD 1 = true ∧ (linkControl cb).getLsbD 2 = true := by
  decide

theorem elements_linked (isLocal cb : Bool) (paddr : ℕ) (bs : List Burst) :
    Linked isLocal cb paddr bs (elements isLocal cb bs) ⟨linkControl cb,paddr⟩ := by
  have hbits : ∀ e ∈ elements isLocal cb bs, ∃ last, e.control = dataControl isLocal cb last := by
    intro e he
    obtain ⟨k,hk⟩ := List.mem_iff_getElem?.mp he
    exact ⟨_,elements_control hk⟩
  obtain ⟨hcb,htcb,hllp⟩ := linkControl_bits cb
  refine ⟨elements_burst isLocal cb bs,?_,?_,?_,?_,?_,hcb,htcb,hllp,rfl⟩
  · intro e he
    obtain ⟨last,hlast⟩ := hbits e he
    rw [hlast]
    exact (dataControl_bits isLocal cb last).1
  · intro e he
    obtain ⟨last,hlast⟩ := hbits e he
    rw [hlast]
    exact (dataControl_bits isLocal cb last).2.1
  · intro e he
    obtain ⟨last,hlast⟩ := hbits e he
    rw [hlast]
    exact (dataControl_bits isLocal cb last).2.2.1
  · intro k e hk
    rw [elements_control hk,(dataControl_bits isLocal cb _).2.2.2.1,beq_iff_eq]
  · intro k e hk
    rw [elements_control hk,(dataControl_bits isLocal cb _).2.2.2.2]
    simp

/-- The list that `write_chunk` leaves is the list of the chunk, nothing else is changed, and
neither the core nor the width of the stores makes a difference. -/
theorem writeChunk_faithful {chunk : Chunk} (halloc : chunk.burstsAlloc = chunk.burst.length)
    (htyped : ∀ b ∈ chunk.burst, b.Typed) (hpaddr : chunk.llRegion.paddr < 18446744073709551616)
    (core : Core) (force32 : Bool) (chip : Chip) (m : Memory) :
    (∃ es l, Linked chip.isLocal chunk.cb chunk.llRegion.paddr chunk.burst es l ∧
      ∀ fuel, chunk.burst.length < fuel →
        decode (core.writeChunk force32 chip chunk m) fuel chunk.llRegion.vaddr = some (es,l)) ∧
    (∀ x, x < chunk.llRegion.vaddr ∨
        chunk.llRegion.vaddr + 24 * chunk.burst.length + 16 ≤ x →
      core.writeChunk force32 chip chunk m x = m x) ∧
    ∀ (core' : Core) force32', core'.writeChunk force32' chip chunk m =
      core.writeChunk force32 chip chunk m := by
  have hlen := elements_length chip.isLocal chunk.cb chunk.burst
  have hlinked := elements_linked chip.isLocal chunk.cb chunk.llRegion.paddr chunk.burst
  refine ⟨⟨_,_,hlinked,?_⟩,?_,?_⟩
  · intro fuel hfuel
    rw [writeChunk_eq halloc,← hlen]
    refine decode_stored hlinked.linkLlp hpaddr _ _ _ m ?_ (by omega)
    intro e he
    refine ⟨htyped _ ?_,hlinked.dataLlp e he⟩
    have hmem := List.mem_map_of_mem (f := Element.burst) he
    rwa [elements_burst] at hmem
  · exact fun x hx => writeChunk_outside halloc core force32 chip m hx
  · intro core' force32'
    rw [writeChunk_eq halloc core' force32',writeChunk_eq halloc core force32]

def twoBursts : Chunk := ⟨[⟨4096,100,8⟩,⟨8192,108,16⟩],2,true,⟨536870912,0,24⟩⟩

/-- Two bursts, where the memory held ones before. -/
theorem twoBursts_faithful :
    (∃ es l, Linked false true 536870912 twoBursts.burst es l ∧ ∀ fuel, 2 < fuel →
      decode (hdmaV0WriteChunk true plainChip twoBursts fun _ => 255#8) fuel 0 = some (es,l)) ∧
    (∀ x, x < 0 ∨ 64 ≤ x →
      hdmaV0WriteChunk true plainChip twoBursts (fun _ => 255#8) x = 255#8) ∧
    ∀ (core' : Core) force32', core'.writeChunk force32' plainChip twoBursts (fun _ => 255#8) =
      hdmaV0WriteChunk true plainChip twoBursts fun _ => 255#8 :=
  @writeChunk_faithful twoBursts rfl
    (by
      intro b hb
      rcases List.mem_pair.mp hb with rfl | rfl
      · exact ⟨by decide,by decide,by decide⟩
      · exact ⟨by decide,by decide,by decide⟩)
    (by decide) .hdmaV0 true plainChip fun _ => 255#8

end AkidaEdma.DwEdma
