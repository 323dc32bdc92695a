import AkidaEdma.Engine.InterruptMask
import AkidaEdma.Library.LastWrite

/-! # The messages of the channels

`ch_config` of both cores. The channels of a direction of the v0 core share the addresses, and
two of them share a data register, each with one half of it.
-/
namespace AkidaEdma.Registers
open AkidaEdma.DwEdma AkidaEdma.V0Core

/-- `struct msi_msg`. -/
structure MsiMsg where
  addressLo : Word
  addressHi : Word
  data : Word
  deriving DecidableEq, Repr

def doneImwr (dir : Dir) : ℕ := rwReg dir 0x60 0xcc
def abortImwr (dir : Dir) : ℕ := rwReg dir 0x68 0xd4

/-- `ch01_imwr_data` to `ch67_imwr_data`, as the two `switch` statements choose. -/
def imwrData (dir : Dir) (id : Fin 8) : ℕ :=
  match id.val with
  | 0 | 1 => rwReg dir 0x70 0xdc
  | 2 | 3 => rwReg dir 0x74 0xe0
  | 4 | 5 => rwReg dir 0x78 0xe4
  | _ => rwReg dir 0x7c 0xe8

def EDMA_V0_CH_ODD_MSI_DATA_MASK : Word := 0xffff0000#32
def EDMA_V0_CH_EVEN_MSI_DATA_MASK : Word := 0x0000ffff#32

/-- The data register with the half of one channel replaced. -/
def withData (id : Fin 8) (data tmp : Word) : Word :=
  if id.val % 2 = 1 then
    (tmp &&& EDMA_V0_CH_EVEN_MSI_DATA_MASK) |||
      ((data <<< 16) &&& EDMA_V0_CH_ODD_MSI_DATA_MASK)
  else
    (tmp &&& EDMA_V0_CH_ODD_MSI_DATA_MASK) ||| (data &&& EDMA_V0_CH_EVEN_MSI_DATA_MASK)

/-- `dw_edma_v0_core_ch_config`; the high word of an address is at the next offset. -/
def edmaV0ChConfig (mf : MapFormat) (dir : Dir) (id : Fin 8) (msi : MsiMsg) (s : RegFile) :
    RegFile :=
  let s := s.set (.edma mf) (doneImwr dir) msi.addressLo
  let s := s.set (.edma mf) (doneImwr dir + 4) msi.addressHi
  let s := s.set (.edma mf) (abortImwr dir) msi.addressLo
  let s := s.set (.edma mf) (abortImwr dir + 4) msi.addressHi
  let tmp := s.get (.edma mf) (imwrData dir id)
  s.set (.edma mf) (imwrData dir id) (withData id msi.data tmp)

def MSI_STOP_LSB : ℕ := 0x90
def MSI_STOP_MSB : ℕ := 0x94
def MSI_ABORT_LSB : ℕ := 0xa0
def MSI_ABORT_MSB : ℕ := 0xa4
def MSI_MSGDATA : ℕ := 0xa8

/-- `dw_hdma_v0_core_ch_config`. -/
def hdmaV0ChConfig (dir : Dir) (id : Fin 8) (msi : MsiMsg) (s : RegFile) : RegFile :=
  let setCh := fun r v (s : RegFile) =>
    s.set .hdmaNative (hdmaV0ChRegs (dirVal dir) id + r) v
  let s := setCh MSI_STOP_LSB msi.addressLo s
  let s := setCh MSI_STOP_MSB msi.addressHi s
  let s := setCh MSI_ABORT_LSB msi.addressLo s
  let s := setCh MSI_ABORT_MSB msi.addressHi s
  setCh MSI_MSGDATA msi.data s

/-- `dw_edma_core_ch_config`. -/
def chConfig : Mf → Dir → Fin 8 → MsiMsg → RegFile → RegFile
  | .edma mf => edmaV0ChConfig mf
  | .hdmaNative => hdmaV0ChConfig

/-- A call of `ch_config`: the channel, and the message in it at the time. -/
structure Config where
  chan : Dir × Fin 8
  msi : MsiMsg
  deriving DecidableEq, Repr

def Config.run (mf : Mf) (s : RegFile) (c : Config) : RegFile :=
  chConfig mf c.chan.1 c.chan.2 c.msi s

def runConfigs (mf : Mf) (s : RegFile) (cs : List Config) : RegFile := cs.foldl (Config.run mf) s

/-- The message with which a channel was last configured. -/
def lastMsi (dir : Dir) (id : Fin 8) (cs : List Config) : Option MsiMsg :=
  (LastWrite.last Config.chan (dir,id) cs).map Config.msi

/-- The half of a data register that belongs to a channel. -/
def imwrHalf (id : Fin 8) (w : Word) : Word :=
  if id.val % 2 = 1 then w >>> 16 else w &&& EDMA_V0_CH_EVEN_MSI_DATA_MASK

/-- The data that the hardware sends for a channel. -/
def msiData (mf : Mf) (dir : Dir) (id : Fin 8) (s : RegFile) : Word :=
  match mf with
  | .edma _ => imwrHalf id (s.word (imwrData dir id))
  | .hdmaNative => s.word (hdmaV0ChRegs (dirVal dir) id + MSI_MSGDATA)

/-- The message that the hardware sends when a channel is done. -/
def doneMsg (mf : Mf) (dir : Dir) (id : Fin 8) (s : RegFile) : MsiMsg :=
  match mf with
  | .edma _ => ⟨s.word (doneImwr dir),s.word (doneImwr dir + 4),msiData mf dir id s⟩
  | .hdmaNative =>
    ⟨s.word (hdmaV0ChRegs (dirVal dir) id + MSI_STOP_LSB),
      s.word (hdmaV0ChRegs (dirVal dir) id + MSI_STOP_MSB),msiData mf dir id s⟩

/-- The message that the hardware sends when a channel is aborted. -/
def abortMsg (mf : Mf) (dir : Dir) (id : Fin 8) (s : RegFile) : MsiMsg :=
  match mf with
  | .edma _ => ⟨s.word (abortImwr dir),s.word (abortImwr dir + 4),msiData mf dir id s⟩
  | .hdmaNative =>
    ⟨s.word (hdmaV0ChRegs (dirVal dir) id + MSI_ABORT_LSB),
      s.word (hdmaV0ChRegs (dirVal dir) id + MSI_ABORT_MSB),msiData mf dir id s⟩

/-- A plain message: the common address, and data of 16 bits. -/
structure MsiMsg.Plain (lo hi : Word) (m : MsiMsg) : Prop where
  lo : m.addressLo = lo
  hi : m.addressHi = hi
  data : m.data.toNat < 65536

/-- The messages of a channel are `m`. -/
def Programmed (mf : Mf) (dir : Dir) (id : Fin 8) (m : MsiMsg) (s : RegFile) : Prop :=
  doneMsg mf dir id s = m ∧ abortMsg mf dir id s = m

/-! ## The halves of a data register -/

theorem even_mask_getLsbD : ∀ i : Fin 32,
    EDMA_V0_CH_EVEN_MSI_DATA_MASK.getLsbD i = decide (i.val < 16) := by decide

theorem odd_mask_getLsbD : ∀ i : Fin 32,
    EDMA_V0_CH_ODD_MSI_DATA_MASK.getLsbD i = decide (16 ≤ i.val) := by decide

theorem withData_getLsbD (id : Fin 8) (data tmp : Word) {i : ℕ} (hi : i < 32) :
    (withData id data tmp).getLsbD i =
      if id.val % 2 = 1 then
        if i < 16 then tmp.getLsbD i else data.getLsbD (i - 16)
      else if i < 16 then data.getLsbD i else tmp.getLsbD i := by
  have heven := even_mask_getLsbD ⟨i,hi⟩
  have hodd := odd_mask_getLsbD ⟨i,hi⟩
  dsimp only at heven hodd
  unfold withData
  by_cases hid : id.val % 2 = 1
  · rw [if_pos hid,if_pos hid,BitVec.getLsbD_or,BitVec.getLsbD_and,BitVec.getLsbD_and,heven,hodd,
      BitVec.getLsbD_shiftLeft]
    by_cases h : i < 16
    · simp [h]
    · simp [h,hi,Nat.le_of_not_lt h]
  · rw [if_neg hid,if_neg hid,BitVec.getLsbD_or,BitVec.getLsbD_and,BitVec.getLsbD_and,heven,hodd]
    by_cases h : i < 16
    · simp [h,Nat.not_le_of_lt h]
    · simp [h,Nat.le_of_not_lt h]

theorem imwrHalf_getLsbD (id : Fin 8) (w : Word) {i : ℕ} (hi : i < 32) :
    (imwrHalf id w).getLsbD i =
      if i < 16 then w.getLsbD (if id.val % 2 = 1 then 16 + i else i) else false := by
  have heven := even_mask_getLsbD ⟨i,hi⟩
  dsimp only at heven
  unfold imwrHalf
  by_cases hid : id.val % 2 = 1
  · rw [if_pos hid,if_pos hid,BitVec.getLsbD_ushiftRight]
    by_cases h : i < 16
    · rw [if_pos h]
    · rw [if_neg h,BitVec.getLsbD_of_ge _ _ (by omega)]
  · rw [if_neg hid,if_neg hid,BitVec.getLsbD_and,heven]
    by_cases h : i < 16 <;> simp [h]

theorem imwrHalf_withData (id : Fin 8) {data : Word} (hdata : data.toNat < 65536) (tmp : Word) :
    imwrHalf id (withData id data tmp) = data := by
  refine BitVec.eq_of_getLsbD_eq fun i hi => ?_
  rw [imwrHalf_getLsbD id _ hi]
  split <;> rename_i h
  · by_cases hid : id.val % 2 = 1
    · rw [if_pos hid,withData_getLsbD id _ _ (by omega),if_pos hid,if_neg (by omega)]
      congr 1
      omega
    · rw [if_neg hid,withData_getLsbD id _ _ hi,if_neg hid,if_pos h]
  · have hpow : data.toNat < 2 ^ i :=
      lt_of_lt_of_le hdata (Nat.pow_le_pow_right (by decide) (Nat.le_of_not_lt h) : 2 ^ 16 ≤ 2 ^ i)
    rw [BitVec.getLsbD,Nat.testBit_lt_two_pow hpow]

theorem imwrHalf_neighbour {id id' : Fin 8} (h : id'.val % 2 ≠ id.val % 2) (data tmp : Word) :
    imwrHalf id' (withData id data tmp) = imwrHalf id' tmp := by
  refine BitVec.eq_of_getLsbD_eq fun i hi => ?_
  rw [imwrHalf_getLsbD id' _ hi,imwrHalf_getLsbD id' _ hi]
  split <;> rename_i hlt
  · by_cases hid : id.val % 2 = 1
    · rw [if_neg (by omega),withData_getLsbD id _ _ hi,if_pos hid,if_pos hlt]
    · rw [if_pos (by omega),withData_getLsbD id _ _ (by omega),if_neg hid,if_neg (by omega)]
  · rfl

/-! ## What one call writes -/

theorem set_word {mf : Mf} {a : ℕ} (h : inWindow mf a = false) (v : Word) (s : RegFile) (b : ℕ) :
    (s.set mf a v).word b = if b = a then v else s.word b := by
  simp [RegFile.set,h]

theorem imwrData_window (mf : Mf) (dir : Dir) (id : Fin 8) : inWindow mf (imwrData dir id) = false := by
  have hlow : ∀ id, imwrData dir id < 0x100 := by cases dir <;> decide
  exact inWindow_outside (Or.inl (hlow id)) mf

theorem imwrData_ne_addr : ∀ (dir dir' : Dir) (id : Fin 8), doneImwr dir ≠ imwrData dir' id ∧
    doneImwr dir + 4 ≠ imwrData dir' id ∧ abortImwr dir ≠ imwrData dir' id ∧
      abortImwr dir + 4 ≠ imwrData dir' id := by
  intro dir dir'
  cases dir <;> cases dir' <;> decide

theorem imwrData_inj : ∀ {dir dir' : Dir} {id id' : Fin 8}, imwrData dir id = imwrData dir' id' →
    dir = dir' ∧ id.val / 2 = id'.val / 2 := by
  intro dir dir'
  cases dir <;> cases dir' <;> decide

theorem edmaV0ChConfig_word (mf : MapFormat) (dir : Dir) (id : Fin 8) (msi : MsiMsg) (s : RegFile)
    (b : ℕ) : (edmaV0ChConfig mf dir id msi s).word b =
      if b = imwrData dir id then withData id msi.data (s.word (imwrData dir id))
      else if b = abortImwr dir + 4 ∨ b = doneImwr dir + 4 then msi.addressHi
      else if b = abortImwr dir ∨ b = doneImwr dir then msi.addressLo
      else s.word b := by
  have hwindow : ∀ a < 0x100, inWindow (.edma mf) a = false := fun a ha =>
    inWindow_outside (Or.inl ha) _
  have hdone : doneImwr dir + 4 < 0x100 := by cases dir <;> decide
  have habort : abortImwr dir + 4 < 0x100 := by cases dir <;> decide
  obtain ⟨h1,h2,h3,h4⟩ := imwrData_ne_addr dir dir id
  have hsplit : doneImwr dir + 4 ≠ abortImwr dir := by cases dir <;> decide
  simp only [edmaV0ChConfig,RegFile.get,imwrData_window,Bool.false_eq_true,if_false,
    set_word (imwrData_window _ _ _),set_word (hwindow _ hdone),set_word (hwindow _ habort),
    set_word (hwindow (doneImwr dir) (by omega)),set_word (hwindow (abortImwr dir) (by omega)),
    h1.symm,h2.symm,h3.symm,h4.symm]
  split_ifs <;> first | rfl | omega

/-- The addresses of a direction are those of the last call for it. -/
theorem edmaV0ChConfig_addr (mf : MapFormat) (dir dir' : Dir) (id : Fin 8) (msi : MsiMsg)
    (s : RegFile) (r : Dir → ℕ) (hr : r = doneImwr ∨ r = abortImwr) :
    (edmaV0ChConfig mf dir' id msi s).word (r dir) =
        (if dir = dir' then msi.addressLo else s.word (r dir)) ∧
      (edmaV0ChConfig mf dir' id msi s).word (r dir + 4) =
        if dir = dir' then msi.addressHi else s.word (r dir + 4) := by
  obtain ⟨h1,h2,h3,h4⟩ := imwrData_ne_addr dir dir' id
  rw [edmaV0ChConfig_word,edmaV0ChConfig_word]
  rcases hr with rfl | rfl
  · rw [if_neg h1,if_neg h2]
    cases dir <;> cases dir' <;> exact ⟨rfl,rfl⟩
  · rw [if_neg h3,if_neg h4]
    cases dir <;> cases dir' <;> exact ⟨rfl,rfl⟩

theorem hdmaV0ChConfig_word (dir : Dir) (id : Fin 8) (msi : MsiMsg) (s : RegFile) (b : ℕ) :
    (hdmaV0ChConfig dir id msi s).word b =
      if b = hdmaV0ChRegs (dirVal dir) id + MSI_MSGDATA then msi.data
      else if b = hdmaV0ChRegs (dirVal dir) id + MSI_ABORT_MSB then msi.addressHi
      else if b = hdmaV0ChRegs (dirVal dir) id + MSI_ABORT_LSB then msi.addressLo
      else if b = hdmaV0ChRegs (dirVal dir) id + MSI_STOP_MSB then msi.addressHi
      else if b = hdmaV0ChRegs (dirVal dir) id + MSI_STOP_LSB then msi.addressLo
      else s.word b := by
  simp only [hdmaV0ChConfig,set_word (inWindow_hdma _)]

theorem hdmaV0ChConfig_other {dir dir' : Dir} {id id' : Fin 8} (h : (dir',id') ≠ (dir,id))
    (msi : MsiMsg) (s : RegFile) {r : ℕ} (hr : r < 0x100) :
    (hdmaV0ChConfig dir' id' msi s).word (hdmaV0ChRegs (dirVal dir) id + r) =
      s.word (hdmaV0ChRegs (dirVal dir) id + r) := by
  have hne : ∀ r' < 0x100, hdmaV0ChRegs (dirVal dir) id + r ≠ hdmaV0ChRegs (dirVal dir') id' + r' := by
    intro r' hr' heq
    obtain ⟨hdir,hid,_⟩ := hdmaV0ChRegs_inj hr hr' heq
    exact h (by rw [hdir,Fin.ext hid])
  rw [hdmaV0ChConfig_word,if_neg (hne _ (by decide)),if_neg (hne _ (by decide)),
    if_neg (hne _ (by decide)),if_neg (hne _ (by decide)),if_neg (hne _ (by decide))]

/-- The data of another channel stays, also that of the neighbour in the same register. -/
theorem chConfig_msiData_ne (mf : Mf) {dir dir' : Dir} {id id' : Fin 8} (h : (dir',id') ≠ (dir,id))
    (msi : MsiMsg) (s : RegFile) :
    msiData mf dir id (chConfig mf dir' id' msi s) = msiData mf dir id s := by
  cases mf with
  | hdmaNative => exact hdmaV0ChConfig_other h msi s (by decide)
  | edma mf =>
    simp only [msiData,chConfig]
    rw [edmaV0ChConfig_word]
    by_cases hreg : imwrData dir id = imwrData dir' id'
    · obtain ⟨rfl,hid⟩ := imwrData_inj hreg
      have hparity : id.val % 2 ≠ id'.val % 2 := by
        intro hmod
        exact h (by rw [Fin.ext (show id'.val = id.val by omega)])
      rw [if_pos hreg,← hreg]
      exact imwrHalf_neighbour hparity _ _
    · obtain ⟨h1,h2,h3,h4⟩ := imwrData_ne_addr dir' dir id
      rw [if_neg hreg,if_neg (not_or.mpr ⟨h4.symm,h2.symm⟩),if_neg (not_or.mpr ⟨h3.symm,h1.symm⟩)]

theorem chConfig_programmed (mf : Mf) (dir : Dir) (id : Fin 8) {m : MsiMsg}
    (hdata : m.data.toNat < 65536) (s : RegFile) :
    Programmed mf dir id m (chConfig mf dir id m s) := by
  cases mf with
  | hdmaNative => simp [Programmed,doneMsg,abortMsg,msiData,chConfig,hdmaV0ChConfig_word,
      MSI_STOP_LSB,MSI_STOP_MSB,MSI_ABORT_LSB,MSI_ABORT_MSB,MSI_MSGDATA]
  | edma mf =>
    obtain ⟨hdone,hdone'⟩ := edmaV0ChConfig_addr mf dir dir id m s doneImwr (Or.inl rfl)
    obtain ⟨habort,habort'⟩ := edmaV0ChConfig_addr mf dir dir id m s abortImwr (Or.inr rfl)
    have hhalf : msiData (.edma mf) dir id (edmaV0ChConfig mf dir id m s) = m.data := by
      rw [msiData,edmaV0ChConfig_word,if_pos rfl,imwrHalf_withData id hdata]
    simp only [Programmed,doneMsg,abortMsg,chConfig,hdone,hdone',habort,habort',hhalf,if_true,
      and_self]

/-- A call for another channel keeps it, when the addresses are the same. -/
theorem chConfig_keeps (mf : Mf) {dir dir' : Dir} {id id' : Fin 8} (h : (dir',id') ≠ (dir,id))
    {lo hi : Word} {m msi : MsiMsg} (hm : m.Plain lo hi) (hmsi : msi.Plain lo hi) {s : RegFile}
    (hs : Programmed mf dir id m s) : Programmed mf dir id m (chConfig mf dir' id' msi s) := by
  obtain ⟨hdone,habort⟩ := hs
  have hdata := chConfig_msiData_ne mf h msi s
  cases mf with
  | hdmaNative =>
    have hother := fun r hr => hdmaV0ChConfig_other h msi s (r := r) hr
    refine ⟨?_,?_⟩
    · rw [← hdone,doneMsg,doneMsg,hdata,chConfig,hother _ (by decide),hother _ (by decide)]
    · rw [← habort,abortMsg,abortMsg,hdata,chConfig,hother _ (by decide),hother _ (by decide)]
  | edma mf =>
    obtain ⟨hlo,hhi⟩ := edmaV0ChConfig_addr mf dir dir' id' msi s doneImwr (Or.inl rfl)
    obtain ⟨hlo',hhi'⟩ := edmaV0ChConfig_addr mf dir dir' id' msi s abortImwr (Or.inr rfl)
    have hsame : msi.addressLo = m.addressLo ∧ msi.addressHi = m.addressHi :=
      ⟨hmsi.lo.trans hm.lo.symm,hmsi.hi.trans hm.hi.symm⟩
    cases m
    simp only [doneMsg,abortMsg,MsiMsg.mk.injEq] at hdone habort hsame
    simp only [Programmed,doneMsg,abortMsg,hdata,MsiMsg.mk.injEq]
    simp only [chConfig,hlo,hhi,hlo',hhi',hdone,habort,hsame,ite_self,and_self]

/-! ## Runs -/

theorem configs_establish (mf : Mf) (lo hi : Word) :
    LastWrite.Establishes (Config.run mf) Config.chan (fun c => c.msi.Plain lo hi)
      (fun c => Programmed mf c.chan.1 c.chan.2 c.msi) where
  own s c hc := chConfig_programmed mf c.chan.1 c.chan.2 hc.data s
  keep _ _ _ hc hf hne h := chConfig_keeps mf hne hc hf h

/-- With plain messages each channel that was configured has the message of its last call, and
the data of the others is as it was. -/
theorem msi_programmed (mf : Mf) (lo hi : Word) (s : RegFile) (cs : List Config)
    (hplain : ∀ c ∈ cs, c.msi.Plain lo hi) (dir : Dir) (id : Fin 8) :
    (∀ m, lastMsi dir id cs = some m → Programmed mf dir id m (runConfigs mf s cs)) ∧
      (lastMsi dir id cs = none →
        msiData mf dir id (runConfigs mf s cs) = msiData mf dir id s) := by
  constructor
  · intro m hm
    obtain ⟨c,hc,rfl⟩ := Option.map_eq_some_iff.mp hm
    have hrun := (configs_establish mf lo hi).run s hplain hc
    rwa [(LastWrite.last_mem hc).2] at hrun
  · intro hnone
    have hkeep : ∀ (s : RegFile) (c : Config), c.chan ≠ (dir,id) →
        msiData mf dir id (c.run mf s) = msiData mf dir id s :=
      fun s c hc => chConfig_msiData_ne mf hc c.msi s
    exact LastWrite.untouched _ hkeep s (Option.map_eq_none_iff.mp hnone)

/-- Registers full of ones, neighbours configured in both orders, one of them twice. -/
theorem neighbours_programmed :
    let cs : List Config := [⟨(.read,3),⟨0xfee00000#32,1#32,0x41#32⟩⟩,
      ⟨(.read,2),⟨0xfee00000#32,1#32,0x42#32⟩⟩,⟨(.read,3),⟨0xfee00000#32,1#32,0x43#32⟩⟩]
    let s : RegFile := ⟨fun _ => 0xffffffff#32,fun _ _ _ => 0xffffffff#32⟩
    Programmed (.edma .unroll) .read 3 ⟨0xfee00000#32,1#32,0x43#32⟩
        (runConfigs (.edma .unroll) s cs) ∧
      msiData (.edma .unroll) .read 1 (runConfigs (.edma .unroll) s cs) =
        msiData (.edma .unroll) .read 1 s := by
  intro cs s
  have hplain : ∀ c ∈ cs, c.msi.Plain 0xfee00000#32 1#32 := by
    intro c hc
    simp only [cs,List.mem_cons,List.not_mem_nil,or_false] at hc
    rcases hc with rfl | rfl | rfl <;> exact ⟨rfl,rfl,by decide⟩
  exact ⟨(msi_programmed (.edma .unroll) 0xfee00000#32 1#32 s cs hplain .read 3).1 _ (by decide),
    (msi_programmed (.edma .unroll) 0xfee00000#32 1#32 s cs hplain .read 1).2 (by decide)⟩

end AkidaEdma.Registers
