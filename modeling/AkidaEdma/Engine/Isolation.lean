import AkidaEdma.Engine.Registers

/-! # What a channel's status query depends on

Two register files that agree on a channel's own registers and on its bits of the shared ones
are compared: the query and the termination of the channel must not tell them apart.
-/
namespace AkidaEdma.Registers
open AkidaEdma.DwEdma AkidaEdma.V0Core

/-- A register of the channel's own block. -/
def ownReg (mf : Mf) (dir : Dir) (id : Fin 8) (r : ℕ) (s : RegFile) : Word :=
  match mf with
  | .edma .legacy => s.bank dir id r
  | .edma mf => s.word (edmaV0ChRegs mf dir id + r)
  | .hdmaNative => s.word (hdmaV0ChRegs (dirVal dir) id + r)

/-- The sizes of `struct dw_edma_v0_ch_regs` and `struct dw_hdma_v0_ch_regs`. -/
def blockSize : Mf → ℕ
  | .edma _ => 0x24
  | .hdmaNative => 0x100

/-- The registers of the v0 core with a bit for each channel of a direction. -/
def sharedRegs (dir : Dir) : List ℕ :=
  [intStatus dir,intMask dir,intClear dir,linkedListErrEn dir]

structure Agree (mf : Mf) (dir : Dir) (id : Fin 8) (s s' : RegFile) : Prop where
  own : ∀ r, r < blockSize mf → ownReg mf dir id r s = ownReg mf dir id r s'
  shared : mf ≠ .hdmaNative → ∀ a ∈ sharedRegs dir, ∀ i, i = id.val ∨ i = 16 + id.val →
    (s.word a).getLsbD i = (s'.word a).getLsbD i

/-- The exits of `dw_edma_device_terminate_all` before the query are not taken. -/
def readsStatus (chan : Chan) : Bool := chan.configured && chan.status == .busy

/-- `dw_edma_device_terminate_all` with the query that it makes. -/
def terminateAll (mf : Mf) (id : Fin 8) (chan : Chan) (s : RegFile) : (Chan × ℤ) × RegFile :=
  let r := chStatus mf chan.dir id s
  (deviceTerminateAll r.1 chan,if readsStatus chan then r.2 else s)

/-- What the channel's query and termination do depends on nothing else. -/
structure IsolatedFor (mf : Mf) (dir : Dir) (id : Fin 8) (s s' : RegFile) : Prop where
  status : (chStatus mf dir id s).1 = (chStatus mf dir id s').1
  statusRegs : Agree mf dir id (chStatus mf dir id s).2 (chStatus mf dir id s').2
  terminate : ∀ chan : Chan, chan.dir = dir → chan.id = id →
    (terminateAll mf id chan s).1 = (terminateAll mf id chan s').1
  terminateRegs : ∀ chan : Chan, chan.dir = dir → chan.id = id →
    Agree mf dir id (terminateAll mf id chan s).2 (terminateAll mf id chan s').2

def Isolated (mf : Mf) (dir : Dir) (id : Fin 8) : Prop :=
  ∀ s s', Agree mf dir id s s' → IsolatedFor mf dir id s s'

/-- The value in which the query finds the status. -/
def statusReg (mf : Mf) (dir : Dir) (id : Fin 8) (s : RegFile) : Word :=
  match mf with
  | .edma mf => ownReg (.edma mf) dir id CH_CONTROL1 s
  | .hdmaNative => s.word (hdmaV0ChRegs id (dirVal dir) + CH_STAT)

theorem shownDir_viewportSel : ∀ (dir : Dir) (id : Fin 8), shownDir (viewportSel dir id) = dir := by
  intro dir
  cases dir <;> decide

theorem inWindow_hdma (a : ℕ) : inWindow .hdmaNative a = false := rfl

theorem inWindow_outside {a : ℕ} (h : a < 0x100 ∨ 0x124 ≤ a) (mf : Mf) : inWindow mf a = false := by
  simp only [inWindow,Bool.and_eq_false_iff,decide_eq_false_iff_not]
  right
  omega

/-- The selection of a channel writes `viewport_sel` and nothing else, under the legacy map. -/
theorem selectCh_sel (dir : Dir) (id : Fin 8) (s : RegFile) :
    (selectCh .legacy dir id s).word VIEWPORT_SEL = viewportSel dir id := by
  have hout : inWindow (.edma .legacy) VIEWPORT_SEL = false := inWindow_outside (by decide) _
  simp [selectCh,RegFile.set,hout]

theorem selectCh_word (mf : MapFormat) (dir : Dir) (id : Fin 8) (s : RegFile) {b : ℕ}
    (hb : b ≠ VIEWPORT_SEL) : (selectCh mf dir id s).word b = s.word b := by
  have hout : inWindow (.edma mf) VIEWPORT_SEL = false := inWindow_outside (by decide) _
  unfold selectCh
  split
  · simp [RegFile.set,hout,hb]
  · rfl

theorem selectCh_bank (mf : MapFormat) (dir : Dir) (id : Fin 8) (s : RegFile) :
    (selectCh mf dir id s).bank = s.bank := by
  have hout : inWindow (.edma mf) VIEWPORT_SEL = false := inWindow_outside (by decide) _
  unfold selectCh
  split
  · simp [RegFile.set,hout]
  · rfl

theorem get_hdma (a : ℕ) (s : RegFile) : s.get .hdmaNative a = s.word a := rfl

/-- The status that the v0 core returns is that of the channel's own block, in all maps. -/
theorem edmaV0ChStatus_eq (mf : MapFormat) (dir : Dir) (id : Fin 8) (s : RegFile) :
    edmaV0ChStatus mf dir id s =
      (dmaStatus ((ownReg (.edma mf) dir id CH_CONTROL1 s >>> 5) &&& 0x3#32),
        selectCh mf dir id s) := by
  cases mf with
  | legacy =>
    have hget : (selectCh .legacy dir id s).get (.edma .legacy) (0x100 + CH_CONTROL1) =
        s.bank dir id CH_CONTROL1 := by
      have hwin : inWindow (.edma .legacy) (0x100 + CH_CONTROL1) = true := by decide
      rw [RegFile.get,hwin,if_pos rfl,selectCh_sel,selectCh_bank,shownDir_viewportSel,
        selected_viewportSel]
      rfl
    simp only [edmaV0ChStatus,readlCh,edmaV0ChRegs,if_true,hget,ownReg]
  | unroll => rfl
  | hdmaCompat => rfl

/-- The selection of a channel is not seen by any channel. -/
theorem Agree.select {mf : MapFormat} {dir : Dir} {id : Fin 8} {s s' : RegFile}
    (h : Agree (.edma mf) dir id s s') :
    Agree (.edma mf) dir id (selectCh mf dir id s) (selectCh mf dir id s') := by
  cases mf with
  | legacy =>
    refine ⟨?_,?_⟩
    · intro r hr
      simp only [ownReg,selectCh_bank]
      exact h.own r hr
    · intro hmf a ha i hi
      have hne : a ≠ VIEWPORT_SEL := by
        rintro rfl
        revert ha
        cases dir <;> decide
      rw [selectCh_word _ _ _ s hne,selectCh_word _ _ _ s' hne]
      exact h.shared hmf a ha i hi
  | unroll => exact h
  | hdmaCompat => exact h

/-- Where the query finds the status decides. -/
theorem isolated_of_statusReg {mf : Mf} {dir : Dir} {id : Fin 8}
    (h : ∀ s s', Agree mf dir id s s' → statusReg mf dir id s = statusReg mf dir id s') :
    Isolated mf dir id := by
  intro s s' ha
  have hreg := h s s' ha
  obtain ⟨hstatus,hregs⟩ : (chStatus mf dir id s).1 = (chStatus mf dir id s').1 ∧
      Agree mf dir id (chStatus mf dir id s).2 (chStatus mf dir id s').2 := by
    cases mf with
    | edma mf =>
      change ownReg (.edma mf) dir id CH_CONTROL1 s = ownReg (.edma mf) dir id CH_CONTROL1 s' at hreg
      simp only [chStatus,edmaV0ChStatus_eq,hreg,true_and]
      exact ha.select
    | hdmaNative =>
      refine ⟨?_,ha⟩
      change s.word _ = s'.word _ at hreg
      simp only [chStatus,hdmaV0ChStatus,get_hdma,hreg]
  refine ⟨hstatus,hregs,?_,?_⟩
  · rintro chan rfl _
    simp only [terminateAll,hstatus]
  · rintro chan rfl _
    unfold terminateAll
    cases readsStatus chan with
    | true => exact hregs
    | false => exact ha

/-- The block that the HDMA core queries is another one, but where the numbers coincide. -/
theorem hdma_block_ne {dir : Dir} {id : Fin 8} (h : id.val ≠ dirVal dir) {r : ℕ}
    (hr : r < 0x100) :
    hdmaV0ChRegs (dirVal dir) id + r ≠ hdmaV0ChRegs id (dirVal dir) + CH_STAT := by
  have hid := id.isLt
  unfold hdmaV0ChRegs CH_STAT
  cases dir <;> simp only [dirVal] at h ⊢ <;> split_ifs <;> omega

/-- The register file of a device at rest, with one status word. -/
def statusAt (a : ℕ) (v : Word) : RegFile := ⟨fun b => if b = a then v else 0#32,fun _ _ _ => 0#32⟩

theorem hdma_not_isolated {dir : Dir} {id : Fin 8} (h : id.val ≠ dirVal dir) :
    ¬ Isolated .hdmaNative dir id := by
  intro hi
  let a := hdmaV0ChRegs id (dirVal dir) + CH_STAT
  have hagree : Agree .hdmaNative dir id (statusAt a 1#32) (statusAt a 3#32) := by
    refine ⟨?_,fun hmf => absurd rfl hmf⟩
    intro r hr
    have hne : hdmaV0ChRegs (dirVal dir) id + r ≠ a := hdma_block_ne h hr
    simp only [ownReg,statusAt,hne,if_false]
  have hstatus := (hi _ _ hagree).status
  have hread : ∀ v, (chStatus .hdmaNative dir id (statusAt a v)).1 = dmaStatus (v &&& 0x3#32) := by
    intro v
    simp [chStatus,hdmaV0ChStatus,get_hdma,statusAt,a]
  rw [hread,hread] at hstatus
  revert hstatus
  decide

/-- A channel is isolated under the v0 core, and under the HDMA core when its number is that
of its direction. -/
theorem isolated_iff (mf : Mf) (dir : Dir) (id : Fin 8) :
    Isolated mf dir id ↔ mf ≠ .hdmaNative ∨ id.val = dirVal dir := by
  constructor
  · intro h
    by_contra hnot
    rw [not_or,not_not] at hnot
    obtain ⟨rfl,hid⟩ := hnot
    exact hdma_not_isolated hid h
  · intro h
    apply isolated_of_statusReg
    intro s s' ha
    cases mf with
    | edma mf => exact ha.own CH_CONTROL1 (show 0 < 0x24 by decide)
    | hdmaNative =>
      have hid : id.val = dirVal dir := h.resolve_left (fun hmf => hmf rfl)
      have hown := ha.own CH_STAT (by decide)
      have hreg : statusReg .hdmaNative dir id = ownReg .hdmaNative dir id CH_STAT := by
        funext t
        simp only [statusReg,ownReg,hid]
      rw [hreg]
      exact hown

/-- The second write channel of the HDMA core, busy. -/
def secondWrite : Chan := ⟨1,.write,1,.none,.busy,true,⟨0,0⟩,[],[],[]⟩

/-- Its termination gives it up when the first read channel has stopped, while its own
registers say nothing of the kind. -/
theorem secondWrite_terminated :
    Agree .hdmaNative .write 1 (statusAt 0x180 1#32) (statusAt 0x180 3#32) ∧
    (terminateAll .hdmaNative 1 secondWrite (statusAt 0x180 1#32)).1 =
      ({ secondWrite with request := .stop },0) ∧
    (terminateAll .hdmaNative 1 secondWrite (statusAt 0x180 3#32)).1 =
      ({ secondWrite with status := .idle, configured := false },0) ∧
    ¬ Isolated .hdmaNative .write 1 := by
  refine ⟨⟨?_,fun hmf => absurd rfl hmf⟩,by decide,by decide,hdma_not_isolated (by decide)⟩
  intro r hr
  have hne := hdma_block_ne (show (1 : Fin 8).val ≠ dirVal .write by decide) hr
  have hreg : ∀ v, ownReg .hdmaNative .write 1 r (statusAt 0x180 v) = 0#32 :=
    fun v => if_neg hne
  rw [hreg,hreg]

end AkidaEdma.Registers
