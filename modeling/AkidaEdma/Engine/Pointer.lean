import AkidaEdma.Engine.CycleState

/-! # The linked-list pointer

The engine keeps its place in the list of a channel in the two LLP registers of the channel.
A start programs them for the first chunk of a descriptor; after that the engine moves them
itself. So it is with the cycle state, which the HDMA core programs at every start.
-/
namespace AkidaEdma.Registers
open AkidaEdma.DwEdma AkidaEdma.V0Core

def llpLsb : Mf → ℕ
  | .edma _ => LLP_LSB
  | .hdmaNative => HDMA_LLP_LSB

def llpMsb : Mf → ℕ
  | .edma _ => LLP_MSB
  | .hdmaNative => HDMA_LLP_MSB

theorem llpLsb_lt (mf : Mf) : llpLsb mf < 0x100 := by
  cases mf <;> simp [llpLsb,LLP_LSB,HDMA_LLP_LSB]

theorem llpMsb_lt (mf : Mf) : llpMsb mf < 0x100 := by
  cases mf <;> simp [llpMsb,LLP_MSB,HDMA_LLP_MSB]

/-- The address in the LLP registers. -/
def llp (mf : Mf) (dir : Dir) (id : Fin 8) (s : RegFile) : ℕ :=
  (ownReg mf dir id (llpLsb mf) s).toNat + 4294967296 * (ownReg mf dir id (llpMsb mf) s).toNat

/-- The device changes a register of a channel's block; it needs no window. -/
def setOwn (mf : Mf) (dir : Dir) (id : Fin 8) (r : ℕ) (v : Word) (s : RegFile) : RegFile :=
  let word := fun a => { s with word := fun b => if b = a then v else s.word b }
  match mf with
  | .edma .legacy => { s with bank := fun dir' id' r' =>
      if dir' = dir ∧ id' = id ∧ r' = r then v else s.bank dir' id' r' }
  | .edma mf => word (edmaV0ChRegs mf dir id + r)
  | .hdmaNative => word (hdmaV0ChRegs (dirVal dir) id + r)

/-- The engine moves on to address `a`. -/
def setLlp (mf : Mf) (dir : Dir) (id : Fin 8) (a : ℕ) (s : RegFile) : RegFile :=
  setOwn mf dir id (llpMsb mf) (BitVec.ofNat 32 (a / 4294967296))
    (setOwn mf dir id (llpLsb mf) (BitVec.ofNat 32 a) s)

theorem llp_halves {a : ℕ} (h : a < 18446744073709551616) :
    (BitVec.ofNat 32 a).toNat + 4294967296 * (BitVec.ofNat 32 (a / 4294967296)).toNat = a := by
  rw [BitVec.toNat_ofNat,BitVec.toNat_ofNat]
  omega

/-- Registers of the v0 core are the same only at one offset of one channel. -/
theorem edmaV0ChRegs_inj {mf : MapFormat} (hmf : mf ≠ .legacy) {dir dir' : Dir} {id id' r r' : ℕ}
    (hr : r < 0x100) (hr' : r' < 0x100)
    (h : edmaV0ChRegs mf dir id + r = edmaV0ChRegs mf dir' id' + r') :
    dir = dir' ∧ id = id' ∧ r = r' := by
  unfold edmaV0ChRegs at h
  rw [if_neg hmf,if_neg hmf] at h
  cases dir <;> cases dir' <;> simp at h ⊢ <;> omega

theorem ownReg_setOwn {mf : Mf} {dir dir' : Dir} {id id' : Fin 8} {r r' : ℕ} (hr : r < 0x100)
    (hr' : r' < 0x100) (v : Word) (s : RegFile) : ownReg mf dir' id' r' (setOwn mf dir id r v s) =
      if dir' = dir ∧ id' = id ∧ r' = r then v else ownReg mf dir' id' r' s := by
  have hunroll : ∀ mf : MapFormat, mf ≠ .legacy →
      ((edmaV0ChRegs mf dir' id' + r' = edmaV0ChRegs mf dir id + r) ↔
        dir' = dir ∧ id' = id ∧ r' = r) := by
    intro mf hmf
    constructor
    · intro h
      obtain ⟨hdir,hid,hreg⟩ := edmaV0ChRegs_inj hmf hr' hr h
      exact ⟨hdir,Fin.ext hid,hreg⟩
    · rintro ⟨rfl,rfl,rfl⟩
      rfl
  have hhdma : (hdmaV0ChRegs (dirVal dir') id' + r' = hdmaV0ChRegs (dirVal dir) id + r) ↔
      dir' = dir ∧ id' = id ∧ r' = r := by
    constructor
    · intro h
      obtain ⟨hdir,hid,hreg⟩ := hdmaV0ChRegs_inj hr' hr h
      exact ⟨hdir,Fin.ext hid,hreg⟩
    · rintro ⟨rfl,rfl,rfl⟩
      rfl
  cases mf with
  | edma mf =>
    cases mf with
    | legacy => rfl
    | unroll => simp only [ownReg,setOwn,hunroll .unroll (by decide)]
    | hdmaCompat => simp only [ownReg,setOwn,hunroll .hdmaCompat (by decide)]
  | hdmaNative => simp only [ownReg,setOwn,hhdma]

theorem llp_setLlp {mf : Mf} {dir : Dir} {id : Fin 8} {a : ℕ} (h : a < 18446744073709551616)
    (s : RegFile) : llp mf dir id (setLlp mf dir id a s) = a := by
  have hne : llpLsb mf ≠ llpMsb mf := by cases mf <;> simp [llpLsb,llpMsb,LLP_LSB,LLP_MSB,
    HDMA_LLP_LSB,HDMA_LLP_MSB]
  have hlsb := llpLsb_lt mf
  have hmsb := llpMsb_lt mf
  simp only [llp,setLlp,ownReg_setOwn hlsb hlsb,ownReg_setOwn hlsb hmsb,ownReg_setOwn hmsb hlsb,
    ownReg_setOwn hmsb hmsb,hne,and_false,true_and,and_self,if_true,if_false]
  exact llp_halves h

theorem llp_setLlp_other {mf : Mf} {dir dir' : Dir} {id id' : Fin 8} (h : (dir',id') ≠ (dir,id))
    (a : ℕ) (s : RegFile) : llp mf dir' id' (setLlp mf dir id a s) = llp mf dir' id' s := by
  have hother : ∀ {r r' : ℕ}, r < 0x100 → r' < 0x100 → ∀ v t,
      ownReg mf dir' id' r' (setOwn mf dir id r v t) = ownReg mf dir' id' r' t := by
    intro r r' hr hr' v t
    rw [ownReg_setOwn hr hr',if_neg]
    rintro ⟨rfl,rfl,_⟩
    exact h rfl
  have hlsb := llpLsb_lt mf
  have hmsb := llpMsb_lt mf
  simp only [llp,setLlp,hother hmsb hlsb,hother hmsb hmsb,hother hlsb hlsb,hother hlsb hmsb]

/-! ## The cycle state of a channel -/

def cycleReg : Mf → ℕ
  | .edma _ => CH_CONTROL1
  | .hdmaNative => CYCLE_SYNC

def cycleBit : Mf → ℕ
  | .edma _ => 8
  | .hdmaNative => 0

theorem cycleReg_lt (mf : Mf) : cycleReg mf < 0x100 := by
  cases mf <;> simp [cycleReg,CH_CONTROL1,CYCLE_SYNC]

theorem cycleState_eq (mf : Mf) (dir : Dir) (id : Fin 8) (s : RegFile) :
    cycleState mf dir id s = (ownReg mf dir id (cycleReg mf) s).getLsbD (cycleBit mf) := by
  cases mf <;> rfl

/-- The engine passes a link with its TCB bit set. -/
def toggleCycle (mf : Mf) (dir : Dir) (id : Fin 8) (s : RegFile) : RegFile :=
  setOwn mf dir id (cycleReg mf) (ownReg mf dir id (cycleReg mf) s ^^^ bit (cycleBit mf)) s

theorem cycleState_toggleCycle (mf : Mf) (dir : Dir) (id : Fin 8) (s : RegFile) :
    cycleState mf dir id (toggleCycle mf dir id s) = !cycleState mf dir id s := by
  have hlt := cycleReg_lt mf
  have hbit : (bit (cycleBit mf)).getLsbD (cycleBit mf) = true := by
    cases mf <;> simp [cycleBit,bit]
  simp only [cycleState_eq,toggleCycle,ownReg_setOwn hlt hlt,and_self,if_true,BitVec.getLsbD_xor,
    hbit,Bool.xor_true]

theorem cycleState_toggleCycle_other {mf : Mf} {dir dir' : Dir} {id id' : Fin 8}
    (h : (dir',id') ≠ (dir,id)) (s : RegFile) :
    cycleState mf dir' id' (toggleCycle mf dir id s) = cycleState mf dir' id' s := by
  have hlt := cycleReg_lt mf
  rw [cycleState_eq,cycleState_eq,toggleCycle,ownReg_setOwn hlt hlt,if_neg]
  rintro ⟨rfl,rfl,_⟩
  exact h rfl

theorem cycleReg_ne (mf : Mf) : llpLsb mf ≠ cycleReg mf ∧ llpMsb mf ≠ cycleReg mf := by
  cases mf <;> simp [cycleReg,llpLsb,llpMsb,CH_CONTROL1,CYCLE_SYNC,LLP_LSB,LLP_MSB,HDMA_LLP_LSB,
    HDMA_LLP_MSB]

/-- The pointer and the cycle state are in registers of their own. -/
theorem llp_toggleCycle (mf : Mf) (dir dir' : Dir) (id id' : Fin 8) (s : RegFile) :
    llp mf dir' id' (toggleCycle mf dir id s) = llp mf dir' id' s := by
  obtain ⟨hlsb,hmsb⟩ := cycleReg_ne mf
  have hlt := cycleReg_lt mf
  simp only [llp,toggleCycle,ownReg_setOwn hlt (llpLsb_lt mf),ownReg_setOwn hlt (llpMsb_lt mf),hlsb,
    hmsb,and_false,if_false]

theorem cycleState_setLlp (mf : Mf) (dir dir' : Dir) (id id' : Fin 8) (a : ℕ) (s : RegFile) :
    cycleState mf dir' id' (setLlp mf dir id a s) = cycleState mf dir' id' s := by
  obtain ⟨hlsb,hmsb⟩ := cycleReg_ne mf
  have hlt := cycleReg_lt mf
  simp only [cycleState_eq,setLlp,ownReg_setOwn (llpLsb_lt mf) hlt,ownReg_setOwn (llpMsb_lt mf) hlt,
    hlsb.symm,hmsb.symm,and_false,if_false]

/-! ## What a start does to the pointers -/

/-- A channel register is written in the block of its channel only. -/
theorem writelCh_ownReg (mf : MapFormat) (dir dir' : Dir) (id id' : Fin 8) {r r' : ℕ}
    (hr : r < 0x24) (hr' : r' < 0x24) (v : Word) (s : RegFile) :
    ownReg (.edma mf) dir' id' r' (writelCh mf dir id v (edmaV0ChRegs mf dir id + r) s) =
      if dir' = dir ∧ id' = id ∧ r' = r then v else ownReg (.edma mf) dir' id' r' s := by
  have hunroll : ∀ mf : MapFormat, mf ≠ .legacy →
      writelCh mf dir id v (edmaV0ChRegs mf dir id + r) s = setOwn (.edma mf) dir id r v s := by
    intro mf hmf
    cases mf <;> first | contradiction | rfl
  cases mf with
  | legacy =>
    have hwindow : inWindow (.edma .legacy) (0x100 + r) = true := by
      simp [inWindow]
      omega
    have hreg : 0x100 + r - 0x100 = r := by omega
    simp only [ownReg,writelCh,edmaV0ChRegs,if_true,RegFile.set,hwindow,selectCh_sel,selectCh_bank,
      shownDir_viewportSel,selected_viewportSel,hreg]
  | unroll => rw [hunroll .unroll (by decide),ownReg_setOwn (by omega) (by omega)]
  | hdmaCompat => rw [hunroll .hdmaCompat (by decide),ownReg_setOwn (by omega) (by omega)]

theorem edmaV0CoreStart_ownReg (mf : MapFormat) (dir dir' : Dir) (id id' : Fin 8) {r : ℕ}
    (hr : r < 0x24) (paddr : ℕ) (s : RegFile) :
    ownReg (.edma mf) dir' id' r (edmaV0CoreStart mf dir id paddr true s) =
      if dir' = dir ∧ id' = id ∧ r = LLP_MSB then BitVec.ofNat 32 (paddr / 4294967296)
      else if dir' = dir ∧ id' = id ∧ r = LLP_LSB then BitVec.ofNat 32 paddr
      else if dir' = dir ∧ id' = id ∧ r = CH_CONTROL1 then bit 8 ||| bit 9
      else ownReg (.edma mf) dir' id' r s := by
  have hglobal : ∀ a, a < 0x100 ∨ 0x124 ≤ a ∧ a < 0x200 → ∀ v t,
      ownReg (.edma mf) dir' id' r (t.set (.edma mf) a v) = ownReg (.edma mf) dir' id' r t :=
    fun a ha v t => set_own mf dir' id' r (inWindow_outside (by omega) _) (by omega) v t
  have hpwr : pwrEn dir id < 0x100 ∨ 0x124 ≤ pwrEn dir id ∧ pwrEn dir id < 0x200 := by
    have hid := id.isLt
    cases dir <;> simp only [pwrEn,rwReg,if_true,reduceCtorEq,if_false] <;> omega
  have hpower : ∀ t, ownReg (.edma mf) dir' id' r
      (if mf = .hdmaCompat then t.set (.edma mf) (pwrEn dir id) (bit 0) else t) =
        ownReg (.edma mf) dir' id' r t := by
    intro t
    split
    · exact hglobal _ hpwr _ _
    · rfl
  have hch := fun {r' : ℕ} (hr' : r' < 0x24) =>
    writelCh_ownReg mf dir dir' id id' hr' hr
  simp only [edmaV0CoreStart,if_true,hglobal _ (show doorbell dir < _ ∨ _ by cases dir <;> decide),
    hch (show LLP_MSB < 0x24 by decide),hch (show LLP_LSB < 0x24 by decide),
    hch (show CH_CONTROL1 < 0x24 by decide),
    hglobal _ (show linkedListErrEn dir < _ ∨ _ by cases dir <;> decide),
    hglobal _ (show intMask dir < _ ∨ _ by cases dir <;> decide),hpower,
    hglobal _ (show engineEn dir < _ ∨ _ by cases dir <;> decide)]

theorem hdmaV0CoreStart_ownReg (isLocal : Bool) {dir dir' : Dir} {id id' : Fin 8} {r : ℕ}
    (hr : r = HDMA_LLP_LSB ∨ r = HDMA_LLP_MSB) (paddr : ℕ) (first : Bool) (s : RegFile) :
    ownReg .hdmaNative dir' id' r (hdmaV0CoreStart isLocal dir id paddr first s) =
      if first = true ∧ dir' = dir ∧ id' = id then
        if r = HDMA_LLP_MSB then BitVec.ofNat 32 (paddr / 4294967296) else BitVec.ofNat 32 paddr
      else ownReg .hdmaNative dir' id' r s := by
  have hset : ∀ {r'}, r' < 0x100 → ∀ v t, ownReg .hdmaNative dir' id' r
      (t.set .hdmaNative (hdmaV0ChRegs (dirVal dir) id + r') v) =
        if dir' = dir ∧ id' = id ∧ r = r' then v else ownReg .hdmaNative dir' id' r t := by
    intro r' hr' v t
    have hlt : r < 0x100 := by rcases hr with rfl | rfl <;> decide
    exact @ownReg_setOwn .hdmaNative dir dir' id id' r' r hr' hlt v t
  have hmiss : ∀ r', r' < 0x100 → r' ≠ HDMA_LLP_LSB → r' ≠ HDMA_LLP_MSB → ∀ v t,
      ownReg .hdmaNative dir' id' r (t.set .hdmaNative (hdmaV0ChRegs (dirVal dir) id + r') v) =
        ownReg .hdmaNative dir' id' r t := by
    intro r' hr' hlsb hmsb v t
    rw [hset hr',if_neg]
    rintro ⟨_,_,rfl⟩
    exact hr.elim hlsb hmsb
  have hdoorbell := hmiss DOORBELL (by decide) (by decide) (by decide)
  have hsync := hmiss CYCLE_SYNC (by decide) (by decide) (by decide)
  have hcontrol := hmiss CONTROL1 (by decide) (by decide) (by decide)
  have hsetup := hmiss INT_SETUP (by decide) (by decide) (by decide)
  have hen := hmiss CH_EN (by decide) (by decide) (by decide)
  cases first with
  | false => simp only [hdmaV0CoreStart,Bool.false_eq_true,if_false,false_and,hdoorbell,hsync]
  | true =>
    simp only [hdmaV0CoreStart,if_true,true_and,hdoorbell,hsync,
      hset (show HDMA_LLP_MSB < 0x100 by decide),hset (show HDMA_LLP_LSB < 0x100 by decide),
      hcontrol,hsetup,hen]
    by_cases hc : dir' = dir ∧ id' = id
    · rcases hr with rfl | rfl <;> simp [hc,HDMA_LLP_LSB,HDMA_LLP_MSB]
    · have hno : ∀ p : Prop, ¬ (dir' = dir ∧ id' = id ∧ p) := fun p hp => hc ⟨hp.1,hp.2.1⟩
      simp only [hno,hc,if_false]

/-- A start programs the pointer of its channel for a first chunk, and no other pointer. -/
theorem llp_coreStart (mf : Mf) (isLocal : Bool) (dir dir' : Dir) (id id' : Fin 8) {paddr : ℕ}
    (h : paddr < 18446744073709551616) (first : Bool) (s : RegFile) :
    llp mf dir' id' (coreStart mf isLocal dir id paddr first s) =
      if first = true ∧ dir' = dir ∧ id' = id then paddr else llp mf dir' id' s := by
  have hhalves := llp_halves h
  cases mf with
  | hdmaNative =>
    simp only [llp,llpLsb,llpMsb,coreStart,hdmaV0CoreStart_ownReg isLocal (.inl rfl),
      hdmaV0CoreStart_ownReg isLocal (.inr rfl)]
    split
    · exact hhalves
    · rfl
  | edma mf =>
    have hlsb := edmaV0CoreStart_ownReg mf dir dir' id id' (show LLP_LSB < 0x24 by decide) paddr
    have hmsb := edmaV0CoreStart_ownReg mf dir dir' id id' (show LLP_MSB < 0x24 by decide) paddr
    have hne : LLP_LSB ≠ LLP_MSB ∧ LLP_LSB ≠ CH_CONTROL1 ∧ LLP_MSB ≠ CH_CONTROL1 := by decide
    cases first with
    | false =>
      have hdoorbell := fun r v t => set_own mf dir' id' r (a := doorbell dir)
        (inWindow_outside (Or.inl (by cases dir <;> decide)) _) (by cases dir <;> decide) v t
      simp only [llp,coreStart,edmaV0CoreStart,Bool.false_eq_true,if_false,false_and,hdoorbell]
    | true =>
      simp only [llp,llpLsb,llpMsb,coreStart,hlsb,hmsb,hne,hne.1.symm,and_false,and_true,if_false,
        true_and]
      split
      · exact hhalves
      · rfl

/-- A start leaves the registers of the other channels alone. -/
theorem hdmaV0CoreStart_other (isLocal : Bool) {dir dir' : Dir} {id id' : Fin 8} {r : ℕ}
    (hr : r < 0x100) (h : (dir',id') ≠ (dir,id)) (paddr : ℕ) (first : Bool) (s : RegFile) :
    ownReg .hdmaNative dir' id' r (hdmaV0CoreStart isLocal dir id paddr first s) =
      ownReg .hdmaNative dir' id' r s := by
  have hset : ∀ {r'}, r' < 0x100 → ∀ v t, ownReg .hdmaNative dir' id' r
      (t.set .hdmaNative (hdmaV0ChRegs (dirVal dir) id + r') v) =
        ownReg .hdmaNative dir' id' r t := by
    intro r' hr' v t
    refine (@ownReg_setOwn .hdmaNative dir dir' id id' r' r hr' hr v t).trans (if_neg ?_)
    rintro ⟨rfl,rfl,_⟩
    exact h rfl
  have hdoorbell := hset (show DOORBELL < 0x100 by decide)
  have hsync := hset (show CYCLE_SYNC < 0x100 by decide)
  cases first with
  | false => simp only [hdmaV0CoreStart,Bool.false_eq_true,if_false,hdoorbell,hsync]
  | true =>
    simp only [hdmaV0CoreStart,if_true,hdoorbell,hsync,hset (show HDMA_LLP_MSB < 0x100 by decide),
      hset (show HDMA_LLP_LSB < 0x100 by decide),hset (show CONTROL1 < 0x100 by decide),
      hset (show INT_SETUP < 0x100 by decide),hset (show CH_EN < 0x100 by decide)]

/-- A start programs the cycle state of its channel with a first chunk, under the HDMA core with
every chunk, and that of no other channel. -/
theorem cycleState_coreStart (mf : Mf) (isLocal : Bool) (dir dir' : Dir) (id id' : Fin 8)
    (paddr : ℕ) (first : Bool) (s : RegFile) :
    cycleState mf dir' id' (coreStart mf isLocal dir id paddr first s) =
      if (mf = .hdmaNative ∨ first = true) ∧ (dir',id') = (dir,id) then true
      else cycleState mf dir' id' s := by
  by_cases hc : (dir',id') = (dir,id)
  · obtain ⟨rfl,rfl⟩ := Prod.mk.inj hc
    by_cases hprog : mf = .hdmaNative ∨ first = true
    · rw [if_pos ⟨hprog,rfl⟩,programmed mf isLocal dir' id' paddr hprog]
    · rw [if_neg fun hboth => hprog hboth.1]
      obtain ⟨hmf,hfirst⟩ := not_or.mp hprog
      cases mf with
      | hdmaNative => exact absurd rfl hmf
      | edma mf =>
        rw [edmaV0CoreStart_cycle,if_neg hfirst]
  · rw [if_neg fun hboth => hc hboth.2]
    cases mf with
    | hdmaNative =>
      rw [cycleState_eq,cycleState_eq,coreStart,hdmaV0CoreStart_other isLocal (cycleReg_lt _) hc]
    | edma mf =>
      have hno : ∀ p : Prop, ¬ (dir' = dir ∧ id' = id ∧ p) := by
        rintro p ⟨rfl,rfl,_⟩
        exact hc rfl
      cases first with
      | false =>
        have hdoorbell := fun r v t => set_own mf dir' id' r (a := doorbell dir)
          (inWindow_outside (Or.inl (by cases dir <;> decide)) _) (by cases dir <;> decide) v t
        simp only [cycleState_eq,coreStart,edmaV0CoreStart,Bool.false_eq_true,if_false,hdoorbell]
      | true =>
        have hcontrol := edmaV0CoreStart_ownReg mf dir dir' id id'
          (show CH_CONTROL1 < 0x24 by decide) paddr s
        simp only [hno,if_false] at hcontrol
        rw [cycleState_eq,cycleState_eq]
        exact congrArg (fun w => BitVec.getLsbD w _) hcontrol

end AkidaEdma.Registers
