import AkidaEdma.Engine.LinkedList
import AkidaEdma.Engine.V0Core

/-! # The register files of both cores

Registers by their offset from `reg_base`, and the functions of the two cores that query,
start and switch off channels as the accesses they make, each function as one step. Under the
legacy map the channel registers lie behind a window; its selection and the access are made
with `dw->lock` held. A register keeps what is written to it.
-/
namespace AkidaEdma.Registers
open AkidaEdma.DwEdma AkidaEdma.V0Core

/-- `enum dw_edma_map_format`; all but the last are served by the v0 core. -/
inductive Mf
  | edma (mf : MapFormat)
  | hdmaNative
  deriving DecidableEq, Repr

def Mf.core : Mf → Core
  | .edma _ => .edmaV0
  | .hdmaNative => .hdmaV0

/-- The registers that are reached directly, and those of each channel behind the window. -/
structure RegFile where
  word : ℕ → Word
  bank : Dir → Fin 8 → ℕ → Word

/-- `type.legacy.viewport_sel`, and the channel that it shows in `type.legacy.ch`. -/
def VIEWPORT_SEL : ℕ := 0xfc

def shownDir (w : Word) : Dir := if w.getLsbD 31 then .read else .write

/-- The offset lies in `type.legacy.ch`. -/
def inWindow (mf : Mf) (a : ℕ) : Bool := mf == .edma .legacy && decide (0x100 ≤ a ∧ a < 0x124)

def RegFile.get (mf : Mf) (a : ℕ) (s : RegFile) : Word :=
  if inWindow mf a then
    s.bank (shownDir (s.word VIEWPORT_SEL)) (selected (s.word VIEWPORT_SEL)) (a - 0x100)
  else s.word a

def RegFile.set (mf : Mf) (a : ℕ) (v : Word) (s : RegFile) : RegFile :=
  if inWindow mf a then
    { s with bank := fun dir id r =>
        if dir = shownDir (s.word VIEWPORT_SEL) ∧ id = selected (s.word VIEWPORT_SEL) ∧
          r = a - 0x100 then v
        else s.bank dir id r }
  else { s with word := fun b => if b = a then v else s.word b }

/-! ## The v0 core -/

/-- `SET_RW_32` and `GET_RW_32` choose between two offsets. -/
def rwReg (dir : Dir) (wr rd : ℕ) : ℕ := if dir = .write then wr else rd

def engineEn (dir : Dir) : ℕ := rwReg dir 0x0c 0x2c
def doorbell (dir : Dir) : ℕ := rwReg dir 0x10 0x30
def intStatus (dir : Dir) : ℕ := rwReg dir 0x4c 0xa0
def intMask (dir : Dir) : ℕ := rwReg dir 0x54 0xa8
def intClear (dir : Dir) : ℕ := rwReg dir 0x58 0xac
def linkedListErrEn (dir : Dir) : ℕ := rwReg dir 0x90 0xc4
def pwrEn (dir : Dir) (id : Fin 8) : ℕ := rwReg dir 0x128 0x168 + 4 * id

/-- `__dw_ch_regs` of the v0 core. -/
def edmaV0ChRegs (mf : MapFormat) (dir : Dir) (ch : ℕ) : ℕ :=
  if mf = .legacy then 0x100
  else if dir = .write then 0x200 + 0x200 * ch
  else 0x200 + 0x200 * ch + 0x100

def CH_CONTROL1 : ℕ := 0x00
def LLP_LSB : ℕ := 0x1c
def LLP_MSB : ℕ := 0x20

/-- The selection of a channel that `readl_ch` and `writel_ch` make. -/
def selectCh (mf : MapFormat) (dir : Dir) (ch : Fin 8) (s : RegFile) : RegFile :=
  if mf = .legacy then s.set (.edma mf) VIEWPORT_SEL (viewportSel dir ch) else s

def readlCh (mf : MapFormat) (dir : Dir) (ch : Fin 8) (a : ℕ) (s : RegFile) : Word × RegFile :=
  let s := selectCh mf dir ch s
  (s.get (.edma mf) a,s)

def writelCh (mf : MapFormat) (dir : Dir) (ch : Fin 8) (v : Word) (a : ℕ) (s : RegFile) :
    RegFile := (selectCh mf dir ch s).set (.edma mf) a v

/-- The three values of the status field. -/
def dmaStatus (tmp : Word) : DmaStatus :=
  if tmp = 1#32 then .inProgress else if tmp = 3#32 then .complete else .error

/-- `dw_edma_v0_core_ch_status`; the field is `GENMASK(6, 5)`. -/
def edmaV0ChStatus (mf : MapFormat) (dir : Dir) (id : Fin 8) (s : RegFile) :
    DmaStatus × RegFile :=
  let r := readlCh mf dir id (edmaV0ChRegs mf dir id + CH_CONTROL1) s
  (dmaStatus ((r.1 >>> 5) &&& 0x3#32),r.2)

/-- `dw_edma_v0_core_off`. -/
def edmaV0CoreOff (mf : MapFormat) (s : RegFile) : RegFile :=
  let both := fun (r : Dir → ℕ) v (s : RegFile) =>
    (s.set (.edma mf) (r .write) v).set (.edma mf) (r .read) v
  let s := both intMask (0xff#32 ||| 0xff0000#32) s
  let s := both intClear (0xff#32 ||| 0xff0000#32) s
  both engineEn 0#32 s

/-- `dw_edma_v0_core_start` after `write_chunk`; `paddr` is that of the chunk's region. The
read of the linked list before the doorbell has no effect here. -/
def edmaV0CoreStart (mf : MapFormat) (dir : Dir) (id : Fin 8) (paddr : ℕ) (first : Bool)
    (s : RegFile) : RegFile :=
  let write := fun a v (s : RegFile) => s.set (.edma mf) a v
  let setCh := fun r v (s : RegFile) => writelCh mf dir id v (edmaV0ChRegs mf dir id + r) s
  let s :=
    if first then
      let s := write (engineEn dir) (bit 0) s
      let s := if mf = .hdmaCompat then write (pwrEn dir id) (bit 0) s else s
      let tmp := s.get (.edma mf) (intMask dir)
      let tmp := tmp &&& ~~~doneBit id
      let tmp := tmp &&& ~~~abortBit id
      let s := write (intMask dir) tmp s
      let tmp := s.get (.edma mf) (linkedListErrEn dir)
      let tmp := tmp ||| doneBit id
      let s := write (linkedListErrEn dir) tmp s
      let s := setCh CH_CONTROL1 (bit 8 ||| bit 9) s
      let s := setCh LLP_LSB (BitVec.ofNat 32 paddr) s
      setCh LLP_MSB (BitVec.ofNat 32 (paddr / 4294967296)) s
    else s
  write (doorbell dir) (BitVec.ofNat 32 id &&& 0x7#32) s

/-! ## The HDMA core -/

/-- The enumerators of `enum dw_edma_dir`. -/
def dirVal : Dir → ℕ
  | .write => 0
  | .read => 1

/-- `__dw_ch_regs` of the HDMA core, with the integers that its callers pass. -/
def hdmaV0ChRegs (dir ch : ℕ) : ℕ := if dir = 0 then 0x200 * ch else 0x200 * ch + 0x100

def CH_EN : ℕ := 0x00
def DOORBELL : ℕ := 0x04
def HDMA_LLP_LSB : ℕ := 0x10
def HDMA_LLP_MSB : ℕ := 0x14
def CYCLE_SYNC : ℕ := 0x18
def CONTROL1 : ℕ := 0x34
def CH_STAT : ℕ := 0x80
def INT_SETUP : ℕ := 0x88
def INT_CLEAR : ℕ := 0x8c

def HDMA_V0_LOCAL_ABORT_INT_EN : Word := bit 6
def HDMA_V0_REMOTE_ABORT_INT_EN : Word := bit 5
def HDMA_V0_LOCAL_STOP_INT_EN : Word := bit 4
def HDMA_V0_REMOTE_STOP_INT_EN : Word := bit 3
def HDMA_V0_ABORT_INT_MASK : Word := bit 2
def HDMA_V0_STOP_INT_MASK : Word := bit 0

/-- `dw_hdma_v0_core_ch_status`. The number of the channel stands where the macro takes the
direction, and the direction where it takes the number. -/
def hdmaV0ChStatus (dir : Dir) (id : Fin 8) (s : RegFile) : DmaStatus × RegFile :=
  (dmaStatus (s.get .hdmaNative (hdmaV0ChRegs id (dirVal dir) + CH_STAT) &&& 0x3#32),s)

/-- One round of the loop of `dw_hdma_v0_core_off`. -/
def hdmaV0ChOff (s : RegFile) (id : ℕ) : RegFile :=
  let both := fun r v (s : RegFile) =>
    (s.set .hdmaNative (hdmaV0ChRegs 0 id + r) v).set .hdmaNative (hdmaV0ChRegs 1 id + r) v
  let s := both INT_SETUP (HDMA_V0_STOP_INT_MASK ||| HDMA_V0_ABORT_INT_MASK) s
  let s := both INT_CLEAR (HDMA_V0_STOP_INT_MASK ||| HDMA_V0_ABORT_INT_MASK) s
  both CH_EN 0#32 s

/-- `dw_hdma_v0_core_off`. -/
def hdmaV0CoreOff (s : RegFile) : RegFile := (List.range 8).foldl hdmaV0ChOff s

/-- `dw_hdma_v0_core_start` after `write_chunk`. -/
def hdmaV0CoreStart (isLocal : Bool) (dir : Dir) (id : Fin 8) (paddr : ℕ) (first : Bool)
    (s : RegFile) : RegFile :=
  let setCh := fun r v (s : RegFile) =>
    s.set .hdmaNative (hdmaV0ChRegs (dirVal dir) id + r) v
  let s :=
    if first then
      let s := setCh CH_EN (bit 0) s
      let tmp := s.get .hdmaNative (hdmaV0ChRegs (dirVal dir) id + INT_SETUP) |||
        HDMA_V0_STOP_INT_MASK ||| HDMA_V0_ABORT_INT_MASK |||
        HDMA_V0_LOCAL_STOP_INT_EN ||| HDMA_V0_LOCAL_ABORT_INT_EN
      let tmp := if isLocal then tmp
        else tmp ||| (HDMA_V0_REMOTE_STOP_INT_EN ||| HDMA_V0_REMOTE_ABORT_INT_EN)
      let s := setCh INT_SETUP tmp s
      let s := setCh CONTROL1 (bit 0) s
      let s := setCh HDMA_LLP_LSB (BitVec.ofNat 32 paddr) s
      setCh HDMA_LLP_MSB (BitVec.ofNat 32 (paddr / 4294967296)) s
    else s
  let s := setCh CYCLE_SYNC (bit 1 ||| bit 0) s
  setCh DOORBELL (bit 0) s

/-! ## Both cores -/

/-- `dw_edma_core_ch_status`. -/
def chStatus : Mf → Dir → Fin 8 → RegFile → DmaStatus × RegFile
  | .edma mf => edmaV0ChStatus mf
  | .hdmaNative => hdmaV0ChStatus

/-- `dw_edma_core_off`. -/
def coreOff : Mf → RegFile → RegFile
  | .edma mf => edmaV0CoreOff mf
  | .hdmaNative => hdmaV0CoreOff

/-- `dw_edma_core_start`. -/
def coreStart (mf : Mf) (isLocal : Bool) (dir : Dir) (id : Fin 8) (paddr : ℕ) (first : Bool) :
    RegFile → RegFile :=
  match mf with
  | .edma mf => edmaV0CoreStart mf dir id paddr first
  | .hdmaNative => hdmaV0CoreStart isLocal dir id paddr first

/-- Registers of the HDMA core are the same only at one offset of one channel. -/
theorem hdmaV0ChRegs_inj {dir dir' : Dir} {id id' r r' : ℕ} (hr : r < 0x100) (hr' : r' < 0x100)
    (h : hdmaV0ChRegs (dirVal dir) id + r = hdmaV0ChRegs (dirVal dir') id' + r') :
    dir = dir' ∧ id = id' ∧ r = r' := by
  unfold hdmaV0ChRegs at h
  cases dir <;> cases dir' <;> simp [dirVal] at h ⊢ <;> omega

end AkidaEdma.Registers
