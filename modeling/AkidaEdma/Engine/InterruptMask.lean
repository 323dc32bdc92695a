import AkidaEdma.Engine.Isolation
import Mathlib.Data.List.Induction

/-! # The interrupt masks of the channels

Sequences of `core_off` and `core_start`, and the mask bits they leave. In both cores
`core_off` masks an interrupt by setting its bit.
-/
namespace AkidaEdma.Registers
open AkidaEdma.DwEdma AkidaEdma.V0Core

inductive Call
  | off
  | start (dir : Dir) (id : Fin 8) (paddr : ℕ) (first : Bool)
  deriving DecidableEq, Repr

def Call.run (mf : Mf) (isLocal : Bool) (s : RegFile) : Call → RegFile
  | .off => coreOff mf s
  | .start dir id paddr first => coreStart mf isLocal dir id paddr first s

def runCalls (mf : Mf) (isLocal : Bool) (s : RegFile) (cs : List Call) : RegFile :=
  cs.foldl (Call.run mf isLocal) s

/-- `int_mask` of the direction, or `int_setup` of the channel. -/
def maskReg (mf : Mf) (dir : Dir) (id : Fin 8) : ℕ :=
  match mf with
  | .edma _ => intMask dir
  | .hdmaNative => hdmaV0ChRegs (dirVal dir) id + INT_SETUP

/-- The positions of the done or stop mask and of the abort mask of a channel. -/
def doneMask (mf : Mf) (id : Fin 8) : ℕ :=
  match mf with
  | .edma _ => id
  | .hdmaNative => 0

def abortMask (mf : Mf) (id : Fin 8) : ℕ :=
  match mf with
  | .edma _ => 16 + id
  | .hdmaNative => 2

/-- Both interrupts of the channel have this mask bit. -/
def MaskBits (mf : Mf) (dir : Dir) (id : Fin 8) (b : Bool) (s : RegFile) : Prop :=
  (s.word (maskReg mf dir id)).getLsbD (doneMask mf id) = b ∧
    (s.word (maskReg mf dir id)).getLsbD (abortMask mf id) = b

/-- The enables of `int_setup`: local always, remote as the chip is not local. -/
def Enables (isLocal : Bool) (dir : Dir) (id : Fin 8) (s : RegFile) : Prop :=
  let w := s.word (maskReg .hdmaNative dir id)
  w.getLsbD 4 = true ∧ w.getLsbD 6 = true ∧
    w.getLsbD 3 = (!isLocal) ∧ w.getLsbD 5 = (!isLocal)

/-- Started with `first` set since the last `core_off`. -/
def StartedSince (cs : List Call) (dir : Dir) (id : Fin 8) : Prop :=
  ∃ pre post paddr, cs = pre ++ .start dir id paddr true :: post ∧ Call.off ∉ post

/-- Not started since the last `core_off`. -/
def UntouchedSince (cs : List Call) (dir : Dir) (id : Fin 8) : Prop :=
  ∃ pre post, cs = pre ++ .off :: post ∧ ∀ paddr first, Call.start dir id paddr first ∉ post

/-- The discipline, for the state that `cs` leaves and for each start in it. -/
structure Disciplined (mf : Mf) (isLocal : Bool) (s : RegFile) (cs : List Call) : Prop where
  started : ∀ dir id, StartedSince cs dir id → MaskBits mf dir id false (runCalls mf isLocal s cs)
  enables : mf = .hdmaNative → ∀ dir id, StartedSince cs dir id →
    Enables isLocal dir id (runCalls mf isLocal s cs)
  untouched : ∀ dir id, UntouchedSince cs dir id →
    MaskBits mf dir id true (runCalls mf isLocal s cs)
  others : ∀ pre post dir id paddr first, cs = pre ++ .start dir id paddr first :: post →
    ∀ dir' id' b, (dir',id') ≠ (dir,id) →
      (MaskBits mf dir' id' b (runCalls mf isLocal s (pre ++ [.start dir id paddr first])) ↔
        MaskBits mf dir' id' b (runCalls mf isLocal s pre))

theorem runCalls_append (mf : Mf) (isLocal : Bool) (s : RegFile) (cs : List Call) (c : Call) :
    runCalls mf isLocal s (cs ++ [c]) = c.run mf isLocal (runCalls mf isLocal s cs) := by
  simp [runCalls]

/-! ## What the calls do to a mask register -/

theorem set_word_ne (mf : Mf) {a b : ℕ} (h : b ≠ a) (v : Word) (s : RegFile) :
    (s.set mf a v).word b = s.word b := by
  unfold RegFile.set
  split
  · rfl
  · exact if_neg h

theorem set_word_same {mf : Mf} {a : ℕ} (h : inWindow mf a = false) (v : Word) (s : RegFile) :
    (s.set mf a v).word a = v := by
  simp [RegFile.set,h]

/-- The channel registers of the v0 core lie above the mask registers. -/
theorem writelCh_word {mf : MapFormat} {dir : Dir} {ch : Fin 8} {a b : ℕ} (ha : 0x100 ≤ a)
    (hb : b < 0xfc) (v : Word) (s : RegFile) : (writelCh mf dir ch v a s).word b = s.word b := by
  have hsel : b ≠ VIEWPORT_SEL := ne_of_lt hb
  rw [writelCh,set_word_ne _ (by omega),selectCh_word _ _ _ _ hsel]

theorem le_edmaV0ChRegs (mf : MapFormat) (dir : Dir) (ch r : ℕ) :
    0x100 ≤ edmaV0ChRegs mf dir ch + r := by
  unfold edmaV0ChRegs
  split_ifs <;> omega

theorem edmaV0CoreStart_word (mf : MapFormat) (dir dir' : Dir) (id : Fin 8) (paddr : ℕ)
    (first : Bool) (s : RegFile) : (edmaV0CoreStart mf dir id paddr first s).word (intMask dir') =
      if first = true ∧ dir' = dir then unmask id (s.word (intMask dir'))
      else s.word (intMask dir') := by
  have hlow : intMask dir' < 0xfc := by cases dir' <;> decide
  have hdoorbell : intMask dir' ≠ doorbell dir := by cases dir <;> cases dir' <;> decide
  have hengine : intMask dir' ≠ engineEn dir := by cases dir <;> cases dir' <;> decide
  have herr : intMask dir' ≠ linkedListErrEn dir := by cases dir <;> cases dir' <;> decide
  have hpwr : intMask dir' ≠ pwrEn dir id := by
    unfold pwrEn rwReg
    split_ifs <;> omega
  have hwindow : inWindow (.edma mf) (intMask dir') = false :=
    inWindow_outside (Or.inl (by omega)) _
  have hwindow' : inWindow (.edma mf) (intMask dir) = false :=
    inWindow_outside (Or.inl (by cases dir <;> decide)) _
  cases first with
  | false => simp [edmaV0CoreStart,set_word_ne _ hdoorbell]
  | true =>
    have hpower : ∀ t : RegFile, (if mf = .hdmaCompat then t.set (.edma mf) (pwrEn dir id) (bit 0)
        else t).word (intMask dir') = t.word (intMask dir') := by
      intro t
      split
      · exact set_word_ne _ hpwr _ _
      · rfl
    simp only [edmaV0CoreStart,if_true,true_and,set_word_ne _ hdoorbell,
      writelCh_word (le_edmaV0ChRegs _ _ _ _) hlow,set_word_ne _ herr]
    by_cases hdir : dir' = dir
    · subst hdir
      rw [set_word_same hwindow,if_pos rfl,RegFile.get,hwindow]
      simp only [Bool.false_eq_true,if_false,hpower,set_word_ne _ hengine]
      rfl
    · have hne : intMask dir' ≠ intMask dir := by
        cases dir <;> cases dir' <;> first | exact absurd rfl hdir | decide
      rw [set_word_ne _ hne,if_neg hdir,hpower,set_word_ne _ hengine]

theorem edmaV0CoreOff_word (mf : MapFormat) (dir : Dir) (s : RegFile) :
    (edmaV0CoreOff mf s).word (intMask dir) = 0xff#32 ||| 0xff0000#32 := by
  have hclear : ∀ dir', intMask dir ≠ intClear dir' := by
    intro dir'
    cases dir <;> cases dir' <;> decide
  have hengine : ∀ dir', intMask dir ≠ engineEn dir' := by
    intro dir'
    cases dir <;> cases dir' <;> decide
  have hwindow : inWindow (.edma mf) (intMask dir) = false :=
    inWindow_outside (Or.inl (by cases dir <;> decide)) _
  simp only [edmaV0CoreOff,set_word_ne _ (hclear _),set_word_ne _ (hengine _)]
  cases dir with
  | write => rw [set_word_ne _ (show intMask .write ≠ intMask .read by decide),set_word_same hwindow]
  | read => rw [set_word_same hwindow]

/-- The bits that a start adds to `int_setup`. -/
def setupBits (isLocal : Bool) : Word :=
  let tmp := HDMA_V0_STOP_INT_MASK ||| HDMA_V0_ABORT_INT_MASK |||
    HDMA_V0_LOCAL_STOP_INT_EN ||| HDMA_V0_LOCAL_ABORT_INT_EN
  if isLocal then tmp else tmp ||| (HDMA_V0_REMOTE_STOP_INT_EN ||| HDMA_V0_REMOTE_ABORT_INT_EN)

theorem set_hdma_setup (dir dir' : Dir) (id id' : ℕ) {r : ℕ} (hr : r < 0x100) (v : Word)
    (s : RegFile) :
    (s.set .hdmaNative (hdmaV0ChRegs (dirVal dir) id + r) v).word
        (hdmaV0ChRegs (dirVal dir') id' + INT_SETUP) =
      if dir' = dir ∧ id' = id ∧ r = INT_SETUP then v
      else s.word (hdmaV0ChRegs (dirVal dir') id' + INT_SETUP) := by
  by_cases h : dir' = dir ∧ id' = id ∧ r = INT_SETUP
  · obtain ⟨rfl,rfl,rfl⟩ := h
    rw [set_word_same (inWindow_hdma _)]
    simp
  · rw [if_neg h]
    apply set_word_ne
    intro he
    obtain ⟨hdir,hid,hreg⟩ := hdmaV0ChRegs_inj (by decide) hr he
    exact h ⟨hdir,hid,hreg.symm⟩

theorem hdmaV0CoreStart_word (isLocal : Bool) (dir dir' : Dir) (id id' : Fin 8) (paddr : ℕ)
    (first : Bool) (s : RegFile) :
    (hdmaV0CoreStart isLocal dir id paddr first s).word
        (hdmaV0ChRegs (dirVal dir') id' + INT_SETUP) =
      if first = true ∧ dir' = dir ∧ id' = id then
        s.word (hdmaV0ChRegs (dirVal dir') id' + INT_SETUP) ||| setupBits isLocal
      else s.word (hdmaV0ChRegs (dirVal dir') id' + INT_SETUP) := by
  have hother : ∀ (r : ℕ) v (t : RegFile), r < 0x100 → r ≠ INT_SETUP →
      (t.set .hdmaNative (hdmaV0ChRegs (dirVal dir) id + r) v).word
        (hdmaV0ChRegs (dirVal dir') id' + INT_SETUP) =
        t.word (hdmaV0ChRegs (dirVal dir') id' + INT_SETUP) := by
    intro r v t hr hne
    rw [set_hdma_setup dir dir' id id' hr,if_neg (fun h => hne h.2.2)]
  have hsync := fun v t => hother CYCLE_SYNC v t (by decide) (by decide)
  have hdoorbell := fun v t => hother DOORBELL v t (by decide) (by decide)
  have hmsb := fun v t => hother HDMA_LLP_MSB v t (by decide) (by decide)
  have hlsb := fun v t => hother HDMA_LLP_LSB v t (by decide) (by decide)
  have hcontrol := fun v t => hother CONTROL1 v t (by decide) (by decide)
  have hen := fun v t => hother CH_EN v t (by decide) (by decide)
  cases first with
  | false => simp [hdmaV0CoreStart,hsync,hdoorbell]
  | true =>
    simp only [hdmaV0CoreStart,if_true,true_and,hsync,hdoorbell,hmsb,hlsb,hcontrol,
      set_hdma_setup dir dir' id id' (show INT_SETUP < 0x100 by decide),get_hdma,and_true,hen]
    by_cases h : dir' = dir ∧ id' = id
    · obtain ⟨rfl,rfl⟩ := h
      simp only [hen,setupBits,and_self,if_true]
      cases isLocal <;> simp [BitVec.or_assoc]
    · have h' : ¬ (dir' = dir ∧ id'.val = id.val) := fun he => h ⟨he.1,Fin.ext he.2⟩
      rw [if_neg h,if_neg h']

/-- The loop of `dw_hdma_v0_core_off` masks one channel of each direction a round. -/
theorem hdmaV0ChOff_foldl (dir : Dir) (id n : ℕ) (s : RegFile) :
    ((List.range n).foldl hdmaV0ChOff s).word (hdmaV0ChRegs (dirVal dir) id + INT_SETUP) =
      if id < n then HDMA_V0_STOP_INT_MASK ||| HDMA_V0_ABORT_INT_MASK
      else s.word (hdmaV0ChRegs (dirVal dir) id + INT_SETUP) := by
  induction n with
  | zero => rfl
  | succ n ih =>
    rw [List.range_succ,List.foldl_append,List.foldl_cons,List.foldl_nil]
    have hwrite : ∀ (r : ℕ) v (t : RegFile), r < 0x100 →
        (t.set .hdmaNative (hdmaV0ChRegs 0 n + r) v).word
          (hdmaV0ChRegs (dirVal dir) id + INT_SETUP) =
        if dir = .write ∧ id = n ∧ r = INT_SETUP then v
        else t.word (hdmaV0ChRegs (dirVal dir) id + INT_SETUP) :=
      fun r v t hr => set_hdma_setup .write dir n id hr v t
    have hread : ∀ (r : ℕ) v (t : RegFile), r < 0x100 →
        (t.set .hdmaNative (hdmaV0ChRegs 1 n + r) v).word
          (hdmaV0ChRegs (dirVal dir) id + INT_SETUP) =
        if dir = .read ∧ id = n ∧ r = INT_SETUP then v
        else t.word (hdmaV0ChRegs (dirVal dir) id + INT_SETUP) :=
      fun r v t hr => set_hdma_setup .read dir n id hr v t
    have hen : CH_EN < 0x100 ∧ CH_EN ≠ INT_SETUP := by decide
    have hclear : INT_CLEAR < 0x100 ∧ INT_CLEAR ≠ INT_SETUP := by decide
    have hsetup : INT_SETUP < 0x100 := by decide
    simp only [hdmaV0ChOff,hwrite _ _ _ hen.1,hread _ _ _ hen.1,hwrite _ _ _ hclear.1,
      hread _ _ _ hclear.1,hwrite _ _ _ hsetup,hread _ _ _ hsetup,hen.2,hclear.2,and_false,
      if_false,and_true,ih]
    by_cases hn : id = n
    · cases dir <;> simp [hn]
    · have hlt : id < n + 1 ↔ id < n := by omega
      simp [hn,hlt]

/-! ## What the calls do to the mask bits -/

theorem coreOff_masks (mf : Mf) (dir : Dir) (id : Fin 8) (s : RegFile) :
    MaskBits mf dir id true (coreOff mf s) := by
  cases mf with
  | edma mf =>
    have hword : (coreOff (.edma mf) s).word (maskReg (.edma mf) dir id) = _ :=
      edmaV0CoreOff_word mf dir s
    have hbits : ∀ id : Fin 8, (0xff#32 ||| 0xff0000#32).getLsbD id = true ∧
        (0xff#32 ||| 0xff0000#32).getLsbD (16 + id) = true := by decide
    rw [MaskBits,hword]
    exact hbits id
  | hdmaNative =>
    have hword : (coreOff .hdmaNative s).word (maskReg .hdmaNative dir id) = _ :=
      hdmaV0ChOff_foldl dir id 8 s
    rw [if_pos id.isLt] at hword
    have hbits : (HDMA_V0_STOP_INT_MASK ||| HDMA_V0_ABORT_INT_MASK).getLsbD 0 = true ∧
        (HDMA_V0_STOP_INT_MASK ||| HDMA_V0_ABORT_INT_MASK).getLsbD 2 = true := by decide
    rw [MaskBits,hword]
    exact hbits

/-- A start changes the mask bits of its own channel only, and these only with `first` set. -/
theorem coreStart_keeps (mf : Mf) (isLocal : Bool) {dir dir' : Dir} {id id' : Fin 8} (paddr : ℕ)
    {first : Bool} (h : first = false ∨ (dir',id') ≠ (dir,id)) (b : Bool) (s : RegFile) :
    MaskBits mf dir' id' b (coreStart mf isLocal dir id paddr first s) ↔
      MaskBits mf dir' id' b s := by
  cases mf with
  | edma mf =>
    have hword : (coreStart (.edma mf) isLocal dir id paddr first s).word
        (maskReg (.edma mf) dir' id') = _ := edmaV0CoreStart_word mf dir dir' id paddr first s
    rw [MaskBits,hword,MaskBits]
    by_cases hsame : first = true ∧ dir' = dir
    · obtain ⟨rfl,rfl⟩ := hsame
      have hne : id'.val ≠ id.val := by
        rcases h with h | h
        · contradiction
        · exact fun he => h (by rw [Fin.ext he])
      have hid := id.isLt
      have hid' := id'.isLt
      rw [if_pos ⟨rfl,rfl⟩,unmask_getLsbD _ _ (by dsimp only [doneMask]; omega),
        unmask_getLsbD _ _ (by dsimp only [abortMask]; omega)]
      have hdone : ¬ (doneMask (.edma mf) id' = id.val) ∧ ¬ (doneMask (.edma mf) id' = 16 + id.val) := by
        dsimp only [doneMask]
        omega
      have habort : ¬ (abortMask (.edma mf) id' = id.val) ∧
          ¬ (abortMask (.edma mf) id' = 16 + id.val) := by
        dsimp only [abortMask]
        omega
      simp [hdone.1,hdone.2,habort.1,habort.2,maskReg]
    · rw [if_neg hsame]
      exact Iff.rfl
  | hdmaNative =>
    have hword : (coreStart .hdmaNative isLocal dir id paddr first s).word
        (maskReg .hdmaNative dir' id') = _ :=
      hdmaV0CoreStart_word isLocal dir dir' id id' paddr first s
    have hnot : ¬ (first = true ∧ dir' = dir ∧ id' = id) := by
      rintro ⟨rfl,rfl,rfl⟩
      rcases h with h | h
      · contradiction
      · exact h rfl
    rw [if_neg hnot] at hword
    rw [MaskBits,hword]
    exact Iff.rfl

theorem edmaV0_first_unmasks (mf : MapFormat) (isLocal : Bool) (dir : Dir) (id : Fin 8)
    (paddr : ℕ) (s : RegFile) :
    MaskBits (.edma mf) dir id false (coreStart (.edma mf) isLocal dir id paddr true s) := by
  have hword : (coreStart (.edma mf) isLocal dir id paddr true s).word
      (maskReg (.edma mf) dir id) = _ := edmaV0CoreStart_word mf dir dir id paddr true s
  have hid := id.isLt
  rw [if_pos ⟨rfl,rfl⟩] at hword
  rw [MaskBits,hword,unmask_getLsbD _ _ (by dsimp only [doneMask]; omega),
    unmask_getLsbD _ _ (by dsimp only [abortMask]; omega)]
  simp [doneMask,abortMask]

theorem hdmaV0_first_masks (isLocal : Bool) (dir : Dir) (id : Fin 8) (paddr : ℕ) (s : RegFile) :
    MaskBits .hdmaNative dir id true (coreStart .hdmaNative isLocal dir id paddr true s) := by
  have hword : (coreStart .hdmaNative isLocal dir id paddr true s).word
      (maskReg .hdmaNative dir id) = _ := hdmaV0CoreStart_word isLocal dir dir id id paddr true s
  have hbits : (setupBits isLocal).getLsbD 0 = true ∧ (setupBits isLocal).getLsbD 2 = true := by
    cases isLocal <;> decide
  rw [if_pos ⟨rfl,rfl,rfl⟩] at hword
  rw [MaskBits,hword]
  simp only [doneMask,abortMask,BitVec.getLsbD_or,hbits.1,hbits.2,Bool.or_true,and_self]

/-! ## Runs -/

theorem startedSince_snoc {cs : List Call} {c : Call} {dir : Dir} {id : Fin 8}
    (h : StartedSince (cs ++ [c]) dir id) :
    (∃ paddr, c = .start dir id paddr true) ∨ c ≠ .off ∧ StartedSince cs dir id := by
  obtain ⟨pre,post,paddr,heq,hpost⟩ := h
  rcases List.eq_nil_or_concat post with rfl | ⟨post,x,rfl⟩
  · obtain ⟨_,hc⟩ := List.append_inj' heq rfl
    exact Or.inl ⟨paddr,(List.cons.inj hc).1⟩
  · rw [List.concat_eq_append,← List.cons_append,← List.append_assoc] at heq
    obtain ⟨hcs,hc⟩ := List.append_inj' heq rfl
    rw [List.concat_eq_append,List.mem_append,not_or] at hpost
    cases hc
    exact Or.inr ⟨fun he => hpost.2 (by rw [he]; exact List.mem_singleton_self _),
      pre,post,paddr,hcs,hpost.1⟩

theorem untouchedSince_snoc {cs : List Call} {c : Call} {dir : Dir} {id : Fin 8}
    (h : UntouchedSince (cs ++ [c]) dir id) :
    c = .off ∨ (∀ paddr first, c ≠ .start dir id paddr first) ∧ UntouchedSince cs dir id := by
  obtain ⟨pre,post,heq,hpost⟩ := h
  rcases List.eq_nil_or_concat post with rfl | ⟨post,x,rfl⟩
  · obtain ⟨_,hc⟩ := List.append_inj' heq rfl
    exact Or.inl (List.cons.inj hc).1
  · rw [List.concat_eq_append,← List.cons_append,← List.append_assoc] at heq
    obtain ⟨hcs,hc⟩ := List.append_inj' heq rfl
    cases hc
    refine Or.inr ⟨?_,pre,post,hcs,?_⟩
    · rintro paddr first rfl
      apply hpost paddr first
      simp
    · intro paddr first hmem
      apply hpost paddr first
      simp [hmem]

/-- In a run of the v0 core a started channel stays unmasked. -/
theorem started_unmasked (mf : MapFormat) (isLocal : Bool) (s : RegFile) (cs : List Call)
    (dir : Dir) (id : Fin 8) (h : StartedSince cs dir id) :
    MaskBits (.edma mf) dir id false (runCalls (.edma mf) isLocal s cs) := by
  induction cs using List.reverseRecOn with
  | nil =>
    obtain ⟨pre,post,_,heq,_⟩ := h
    simp at heq
  | append_singleton cs c ih =>
    rw [runCalls_append]
    rcases startedSince_snoc h with ⟨paddr,rfl⟩ | ⟨hoff,hcs⟩
    · exact edmaV0_first_unmasks mf isLocal dir id paddr _
    · cases c with
      | off => contradiction
      | start dir' id' paddr first =>
        by_cases hkeep : first = false ∨ (dir,id) ≠ (dir',id')
        · exact (coreStart_keeps (.edma mf) isLocal paddr hkeep false _).mpr (ih hcs)
        · rw [not_or,Bool.not_eq_false,not_not] at hkeep
          obtain ⟨rfl,hpair⟩ := hkeep
          cases hpair
          exact edmaV0_first_unmasks mf isLocal dir id paddr _

/-- In a run of either core an untouched channel stays masked. -/
theorem untouched_masked (mf : Mf) (isLocal : Bool) (s : RegFile) (cs : List Call) (dir : Dir)
    (id : Fin 8) (h : UntouchedSince cs dir id) :
    MaskBits mf dir id true (runCalls mf isLocal s cs) := by
  induction cs using List.reverseRecOn with
  | nil =>
    obtain ⟨pre,post,heq,_⟩ := h
    simp at heq
  | append_singleton cs c ih =>
    rw [runCalls_append]
    rcases untouchedSince_snoc h with rfl | ⟨hother,hcs⟩
    · exact coreOff_masks mf dir id _
    · cases c with
      | off => exact coreOff_masks mf dir id _
      | start dir' id' paddr first =>
        refine (coreStart_keeps mf isLocal paddr (Or.inr ?_) true _).mpr (ih hcs)
        intro hpair
        cases hpair
        exact hother paddr first rfl

/-- The discipline is kept in every state of a run under the v0 core; under the HDMA core it
is kept as long as no channel is started with `first` set. -/
theorem disciplined_iff (mf : Mf) (isLocal : Bool) (s : RegFile) (cs : List Call) :
    (∀ pre, pre <+: cs → Disciplined mf isLocal s pre) ↔
      mf ≠ .hdmaNative ∨ ∀ dir id paddr, Call.start dir id paddr true ∉ cs := by
  constructor
  · intro h
    cases mf with
    | edma mf => exact Or.inl (by simp)
    | hdmaNative =>
      right
      intro dir id paddr hmem
      obtain ⟨pre,post,hcs⟩ := List.append_of_mem hmem
      have hpre : pre ++ [.start dir id paddr true] <+: cs := ⟨post,by rw [hcs]; simp⟩
      have hunmasked := ((h _ hpre).started dir id ⟨pre,[],paddr,rfl,List.not_mem_nil⟩).1
      have hmasked := (hdmaV0_first_masks isLocal dir id paddr
        (runCalls .hdmaNative isLocal s pre)).1
      rw [runCalls_append] at hunmasked
      exact Bool.false_ne_true (hunmasked.symm.trans hmasked)
  · intro h pre hpre
    have hnone : mf = .hdmaNative → ∀ dir id, ¬ StartedSince pre dir id := by
      rintro rfl dir id ⟨front,post,paddr,heq,_⟩
      rcases h with h | h
      · exact h rfl
      · apply h dir id paddr
        apply hpre.subset
        simp [heq]
    refine ⟨?_,?_,untouched_masked mf isLocal s pre,?_⟩
    · intro dir id hstarted
      cases mf with
      | edma mf => exact started_unmasked mf isLocal s pre dir id hstarted
      | hdmaNative => exact absurd hstarted (hnone rfl dir id)
    · intro hmf dir id hstarted
      exact absurd hstarted (hnone hmf dir id)
    · intro front post dir id paddr first _ dir' id' b hne
      rw [runCalls_append]
      exact coreStart_keeps mf isLocal paddr (Or.inr hne) b _

/-- The first start after the probe leaves its channel masked under the HDMA core. -/
theorem firstStart_masked :
    MaskBits .hdmaNative .write 0 true
      (runCalls .hdmaNative false (statusAt 0 0#32) [.off,.start .write 0 4096 true]) ∧
    ¬ Disciplined .hdmaNative false (statusAt 0 0#32) [.off,.start .write 0 4096 true] := by
  have hmasked := hdmaV0_first_masks false .write 0 4096 (coreOff .hdmaNative (statusAt 0 0#32))
  refine ⟨hmasked,?_⟩
  intro h
  have hstarted := h.started .write 0 ⟨[.off],[],4096,rfl,List.not_mem_nil⟩
  exact Bool.false_ne_true (hstarted.1.symm.trans hmasked.1)

end AkidaEdma.Registers
