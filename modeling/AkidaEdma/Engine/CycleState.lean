import AkidaEdma.Engine.Accounting
import AkidaEdma.Engine.InterruptMask

/-! # The consumer cycle state

The elements of a chunk carry its cycle bit, and the engine consumes them when its own cycle
state agrees. The v0 core programs the state with the channel context, the HDMA core at every
start.
-/
namespace AkidaEdma.Registers
open AkidaEdma.DwEdma AkidaEdma.V0Core

/-- `CCS` of `ch_control1`, or `CONSUMER_CYCLE_BIT` of `cycle_sync`. -/
def cycleState (mf : Mf) (dir : Dir) (id : Fin 8) (s : RegFile) : Bool :=
  match mf with
  | .edma mf => (ownReg (.edma mf) dir id CH_CONTROL1 s).getLsbD 8
  | .hdmaNative => (ownReg .hdmaNative dir id CYCLE_SYNC s).getLsbD 0

/-- A start with this `first` programs the state: it changes it in some register file. -/
def Programs (mf : Mf) (isLocal : Bool) (dir : Dir) (id : Fin 8) (paddr : ℕ) (first : Bool) :
    Prop :=
  ∃ s, cycleState mf dir id (coreStart mf isLocal dir id paddr first s) ≠ cycleState mf dir id s

/-- Whenever a chunk of `d` is started and the state is programmed, it becomes the cycle bit
that the elements of the chunk were written with. -/
def Agreed (mf : Mf) (isLocal : Bool) (dir : Dir) (id : Fin 8) (d : Desc) (chan : Chan) : Prop :=
  ∀ k, k < d.chunk.length → ∀ s, (startTransfer (startTransfers k chan)).2 = some s →
    Programs mf isLocal dir id s.chunk.llRegion.paddr s.first →
    ∀ regs, cycleState mf dir id
      (coreStart mf isLocal dir id s.chunk.llRegion.paddr s.first regs) = s.chunk.cb

/-! ## What a start does to the channel's own registers -/

theorem set_own (mf : MapFormat) (dir : Dir) (id : Fin 8) (r : ℕ) {a : ℕ}
    (hwindow : inWindow (.edma mf) a = false) (ha : a < 0x200) (v : Word) (s : RegFile) :
    ownReg (.edma mf) dir id r (s.set (.edma mf) a v) = ownReg (.edma mf) dir id r s := by
  have hunroll : ∀ mf' : MapFormat, mf' ≠ .legacy → edmaV0ChRegs mf' dir id + r ≠ a := by
    intro mf' hmf
    unfold edmaV0ChRegs
    rw [if_neg hmf]
    split_ifs <;> omega
  cases mf with
  | legacy => simp only [ownReg,RegFile.set,hwindow,Bool.false_eq_true,if_false]
  | unroll => exact set_word_ne _ (hunroll .unroll (by decide)) v s
  | hdmaCompat => exact set_word_ne _ (hunroll .hdmaCompat (by decide)) v s

/-- A channel register is written in the channel's own block, under all maps. -/
theorem writelCh_own (mf : MapFormat) (dir : Dir) (id : Fin 8) (r : ℕ) {r' : ℕ} (hr' : r' < 0x24)
    (v : Word) (s : RegFile) :
    ownReg (.edma mf) dir id r (writelCh mf dir id v (edmaV0ChRegs mf dir id + r') s) =
      if r = r' then v else ownReg (.edma mf) dir id r s := by
  have hunroll : ∀ mf' : MapFormat, mf' ≠ .legacy →
      (s.set (.edma mf') (edmaV0ChRegs mf' dir id + r') v).word (edmaV0ChRegs mf' dir id + r) =
        if r = r' then v else s.word (edmaV0ChRegs mf' dir id + r) := by
    intro mf' hmf
    have hwindow : inWindow (.edma mf') (edmaV0ChRegs mf' dir id + r') = false := by
      cases mf' <;> first | contradiction | rfl
    simp [RegFile.set,hwindow]
  cases mf with
  | legacy =>
    have hwindow : inWindow (.edma .legacy) (0x100 + r') = true := by
      simp [inWindow]
      omega
    have hreg : 0x100 + r' - 0x100 = r' := by omega
    simp only [ownReg,writelCh,edmaV0ChRegs,if_true,RegFile.set,hwindow,selectCh_sel,selectCh_bank,
      shownDir_viewportSel,selected_viewportSel,true_and,hreg]
  | unroll => exact hunroll .unroll (by decide)
  | hdmaCompat => exact hunroll .hdmaCompat (by decide)

theorem edmaV0CoreStart_cycle (mf : MapFormat) (isLocal : Bool) (dir : Dir) (id : Fin 8)
    (paddr : ℕ) (first : Bool) (s : RegFile) :
    cycleState (.edma mf) dir id (coreStart (.edma mf) isLocal dir id paddr first s) =
      if first then true else cycleState (.edma mf) dir id s := by
  have hdoorbell := fun v t => set_own mf dir id CH_CONTROL1 (a := doorbell dir)
    (inWindow_outside (Or.inl (by cases dir <;> decide)) _) (by cases dir <;> decide) v t
  have hmsb := fun v t => writelCh_own mf dir id CH_CONTROL1 (show LLP_MSB < 0x24 by decide) v t
  have hlsb := fun v t => writelCh_own mf dir id CH_CONTROL1 (show LLP_LSB < 0x24 by decide) v t
  have hcontrol := fun v t =>
    writelCh_own mf dir id CH_CONTROL1 (show CH_CONTROL1 < 0x24 by decide) v t
  have hne : CH_CONTROL1 ≠ LLP_MSB ∧ CH_CONTROL1 ≠ LLP_LSB := by decide
  cases first with
  | false => simp [cycleState,coreStart,edmaV0CoreStart,hdoorbell]
  | true =>
    simp only [cycleState,coreStart,edmaV0CoreStart,if_true,hdoorbell,hmsb,hne.1,if_false,hlsb,
      hne.2,hcontrol]
    decide

theorem hdmaV0CoreStart_cycle (isLocal : Bool) (dir : Dir) (id : Fin 8) (paddr : ℕ)
    (first : Bool) (s : RegFile) :
    cycleState .hdmaNative dir id (coreStart .hdmaNative isLocal dir id paddr first s) = true := by
  have hdoorbell : hdmaV0ChRegs (dirVal dir) id + CYCLE_SYNC ≠
      hdmaV0ChRegs (dirVal dir) id + DOORBELL := by
    have hne : CYCLE_SYNC ≠ DOORBELL := by decide
    omega
  simp only [cycleState,coreStart,hdmaV0CoreStart,ownReg]
  rw [set_word_ne _ hdoorbell,set_word_same (inWindow_hdma _)]
  decide

theorem programmed (mf : Mf) (isLocal : Bool) (dir : Dir) (id : Fin 8) (paddr : ℕ)
    {first : Bool} (h : mf = .hdmaNative ∨ first = true) (s : RegFile) :
    cycleState mf dir id (coreStart mf isLocal dir id paddr first s) = true := by
  cases mf with
  | edma mf =>
    have hfirst : first = true := h.resolve_left (by simp)
    rw [edmaV0CoreStart_cycle,hfirst]
    rfl
  | hdmaNative => exact hdmaV0CoreStart_cycle isLocal dir id paddr first s

/-- The v0 core programs the state of a first chunk, the HDMA core that of every chunk. -/
theorem programs_iff (mf : Mf) (isLocal : Bool) (dir : Dir) (id : Fin 8) (paddr : ℕ)
    (first : Bool) :
    Programs mf isLocal dir id paddr first ↔ mf = .hdmaNative ∨ first = true := by
  have hrest : cycleState mf dir id (statusAt 0 0#32) = false := by
    cases mf with
    | edma mf => cases mf <;> simp [cycleState,ownReg,statusAt]
    | hdmaNative => simp [cycleState,ownReg,statusAt]
  constructor
  · rintro ⟨s,hs⟩
    cases mf with
    | edma mf =>
      right
      cases first with
      | false => exact absurd (edmaV0CoreStart_cycle mf isLocal dir id paddr false s) hs
      | true => rfl
    | hdmaNative => exact Or.inl rfl
  · intro h
    refine ⟨statusAt 0 0#32,?_⟩
    rw [hrest,programmed mf isLocal dir id paddr h]
    exact Bool.noConfusion

/-- The state agrees with the elements unless a chunk with the other cycle bit is started as a
first one, and under the HDMA core only for a single chunk. -/
theorem agreed_iff {chip : Chip} {chan : Chan} (hll : 1 ≤ chan.llMax) {vd : ℕ} {x : Transfer}
    {d : Desc} (hd : deviceTransfer chip chan vd x = some d) {rest : List Desc} {chan' : Chan}
    (hissued : chan'.descIssued = d :: rest) (mf : Mf) (dir : Dir) (id : Fin 8) :
    Agreed mf chip.isLocal dir id d chan' ↔
      (mf = .hdmaNative → d.chunk.length = 1) ∧
      (mf ≠ .hdmaNative → ∀ k, k < d.chunk.length → k % 2 = 1 →
        u32 (totalSz (d.chunk.take k)) ≠ 0) := by
  have hbuilt := deviceTransfer_built hll hd
  have hfresh := hbuilt.fresh.xfer_eq
  have hpos : 1 ≤ d.chunk.length := List.length_pos_iff.mpr hbuilt.fresh.chunk_ne
  constructor
  · intro h
    -- a chunk of odd index is not started with the state programmed
    have hodd : ∀ k, k < d.chunk.length → k % 2 = 1 →
        ¬ (mf = .hdmaNative ∨ u32 (totalSz (d.chunk.take k)) = 0) := by
      intro k hk hmod hprog
      have hget := List.getElem?_eq_getElem hk
      have hstarted := startTransfers_started hfresh hissued hget
      have hcb := hbuilt.cb k _ hget
      have hprog' : mf = .hdmaNative ∨ (u32 (totalSz (d.chunk.take k)) == 0) = true := by
        rwa [beq_iff_eq]
      have hagree := h k hk _ hstarted ((programs_iff mf _ dir id _ _).mpr hprog')
        (statusAt 0 0#32)
      rw [programmed mf _ dir id _ hprog',hcb,hmod] at hagree
      contradiction
    refine ⟨?_,fun _ k hk hmod hzero => hodd k hk hmod (Or.inr hzero)⟩
    rintro rfl
    by_contra hlen
    exact hodd 1 (by omega) rfl (Or.inl rfl)
  · rintro ⟨hhdma,hv0⟩ k hk s hs hprograms regs
    have hget := List.getElem?_eq_getElem hk
    rw [startTransfers_started hfresh hissued hget] at hs
    cases hs
    have hprog := (programs_iff mf _ dir id _ _).mp hprograms
    rw [programmed mf _ dir id _ hprog,hbuilt.cb k _ hget]
    have heven : k % 2 = 0 := by
      by_contra hmod
      rcases hprog with rfl | hzero
      · have hlen := hhdma rfl
        omega
      · by_cases hmf : mf = .hdmaNative
        · have hlen := hhdma hmf
          omega
        · exact hv0 hmf k hk (by omega) (beq_iff_eq.mp hzero)
    rw [heven]
    rfl

/-- Two chunks under the HDMA core, and a first chunk of no bytes under the v0 core. -/
theorem secondChunk_disagrees :
    (deviceTransfer plainChip oneRoom 0 ⟨.devToMem,.scatterGather [⟨4096,16⟩,⟨8192,8⟩] 2⟩ =
      some (twoEntries 16) ∧
    ¬ Agreed .hdmaNative false .write 0 (twoEntries 16)
      { oneRoom with descIssued := [twoEntries 16] }) ∧
    deviceTransfer plainChip oneRoom 0 ⟨.devToMem,.scatterGather [⟨4096,0⟩,⟨8192,8⟩] 2⟩ =
      some (twoEntries 0) ∧
    ¬ Agreed (.edma .legacy) false .write 0 (twoEntries 0)
      { oneRoom with descIssued := [twoEntries 0] } := by
  refine ⟨⟨rfl,?_⟩,rfl,?_⟩
  · intro h
    have hagree := h 1 (by decide) _ rfl
      ((programs_iff .hdmaNative false .write 0 _ _).mpr (Or.inl rfl)) (statusAt 0 0#32)
    rw [hdmaV0CoreStart_cycle] at hagree
    contradiction
  · intro h
    have hagree := h 1 (by decide) _ rfl
      ((programs_iff (.edma .legacy) false .write 0 _ _).mpr (Or.inr rfl)) (statusAt 0 0#32)
    rw [edmaV0CoreStart_cycle] at hagree
    contradiction

/-- Two chunks under the v0 core, of which the first has bytes. -/
theorem twoEntries_agreed : Agreed (.edma .legacy) false .write 0 (twoEntries 16)
    { oneRoom with descIssued := [twoEntries 16] } :=
  (@agreed_iff plainChip oneRoom (by decide) 0 ⟨.devToMem,.scatterGather [⟨4096,16⟩,⟨8192,8⟩] 2⟩
    _ rfl _ _ rfl _ _ _).mpr (by decide)

end AkidaEdma.Registers
