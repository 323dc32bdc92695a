import AkidaEdma.Driver.ReadWrite
import Mathlib.Tactic.FinCases
import Mathlib.Tactic.IntervalCases
import Mathlib.Tactic.NormNum

/-! # The address translation of the boards

The inbound regions of the iATU after `setup_iatu` of each board. A region in BAR match mode
maps an offset in its BAR to the same offset from its target.
-/
namespace AkidaEdma.Driver

inductive Board | akida1000 | akida1500
  deriving DecidableEq, Repr

def AKIDA_1500_BAR2_OFFSET : ℕ := 0xFCC00000
def AKIDA_1500_BAR4_OFFSET : ℕ := 0x20000000
def AKIDA_1500_HOST_DDR_BASE : ℕ := 0xC0000000

/-- `struct akida_iatu_conf`. -/
structure IatuConf where
  addr : ℕ
  val : ℕ
  deriving DecidableEq, Repr

/-- `akida_1000_iatu_conf_table`, without the entry that ends it. -/
def akida1000IatuConfTable (ram : DmaRam) : List IatuConf :=
  [⟨0x0900,0x80000000⟩,⟨0x0904,0x00000000⟩,⟨0x0918,0xFCC00000⟩,⟨0x0908,0xC0080000⟩,
    ⟨0x0900,0x80000001⟩,⟨0x0904,0x00000000⟩,⟨0x0918,0xF8C00000⟩,⟨0x0908,0xC0080200⟩,
    ⟨0x0900,0x80000002⟩,⟨0x0904,0x00000000⟩,⟨0x0918,ram.addr⟩,⟨0x0908,0xC0080400⟩]

/-- `akida_1500_iatu_conf_table`, without the entry that ends it. -/
def akida1500IatuConfTable : List IatuConf :=
  [⟨0x0700,0x00000000⟩,⟨0x0704,0xC0080200⟩,⟨0x0714,AKIDA_1500_BAR2_OFFSET⟩,
    ⟨0x0900,0x00000000⟩,⟨0x0904,0xC0080400⟩,⟨0x0914,AKIDA_1500_BAR4_OFFSET⟩]

/-- The registers of an inbound region: its second control word and its lower target. -/
structure Inbound where
  ctrl2 : ℕ
  target : ℕ

/-- The iATU; `viewport` is the region that the legacy registers show. -/
structure Iatu where
  viewport : ℕ
  inbound : ℕ → Inbound

def Iatu.reset : Iatu := ⟨0,fun _ => ⟨0,0⟩⟩

def Iatu.setCtrl2 (s : Iatu) (r v : ℕ) : Iatu :=
  { s with inbound := fun i => if i = r then { s.inbound i with ctrl2 := v } else s.inbound i }

def Iatu.setTarget (s : Iatu) (r v : ℕ) : Iatu :=
  { s with inbound := fun i => if i = r then { s.inbound i with target := v } else s.inbound i }

/-- A write of `akida_1000_setup_iatu`: the region is chosen at `0x900`. -/
def Iatu.write1000 (s : Iatu) (conf : IatuConf) : Iatu :=
  if conf.addr = 0x0900 then { s with viewport := conf.val % 2147483648 }
  else if conf.addr = 0x0908 then s.setCtrl2 s.viewport conf.val
  else if conf.addr = 0x0918 then s.setTarget s.viewport conf.val
  else s

/-- A write of `akida_1500_setup_iatu`: inbound region `i` has its registers at
`0x500 + 0x200 * i`. -/
def Iatu.write1500 (s : Iatu) (conf : IatuConf) : Iatu :=
  let r := (conf.addr - 0x500) / 0x200
  let reg := (conf.addr - 0x500) % 0x200
  if reg = 0x4 then s.setCtrl2 r conf.val
  else if reg = 0x14 then s.setTarget r conf.val
  else s

/-- The inbound part of `setup_iatu`. -/
def Board.setupIatu (ram : DmaRam) : Board → Iatu
  | .akida1000 => (akida1000IatuConfTable ram).foldl Iatu.write1000 Iatu.reset
  | .akida1500 => akida1500IatuConfTable.foldl Iatu.write1500 Iatu.reset

/-- Enabled, in BAR match mode, for this BAR. -/
def Inbound.serves (r : Inbound) (bar : ℕ) : Bool :=
  r.ctrl2.testBit 31 && r.ctrl2.testBit 30 && r.ctrl2 / 256 % 8 == bar

/-- The target of a BAR under the three inbound regions. -/
def Iatu.target (s : Iatu) (bar : ℕ) : Option ℕ :=
  (([0,1,2].map s.inbound).find? fun r => r.serves bar).map Inbound.target

/-- The device address behind an offset in a BAR. -/
def Board.translate (ram : DmaRam) (board : Board) (bar off : ℕ) : Option ℕ :=
  ((board.setupIatu ram).target bar).map (· + off)

theorem setupIatu_inbound (ram : DmaRam) :
    ([0,1,2].map (Board.setupIatu ram .akida1000).inbound =
      [⟨0xC0080000,0xFCC00000⟩,⟨0xC0080200,0xF8C00000⟩,⟨0xC0080400,ram.addr⟩]) ∧
    [0,1,2].map (Board.setupIatu ram .akida1500).inbound =
      [⟨0,0⟩,⟨0xC0080200,AKIDA_1500_BAR2_OFFSET⟩,⟨0xC0080400,AKIDA_1500_BAR4_OFFSET⟩] := by
  constructor
  · simp [Board.setupIatu,akida1000IatuConfTable,Iatu.write1000,Iatu.setCtrl2,Iatu.setTarget,
      Iatu.reset]
  · simp [Board.setupIatu,akida1500IatuConfTable,Iatu.write1500,Iatu.setCtrl2,Iatu.setTarget,
      Iatu.reset]

/-- The BAR of a region is the field of its control word. -/
theorem serves_bar {bar ctrl2 : ℕ} (hbar : bar < 8) (hctrl : ctrl2 = 0xC0080000 + 256 * bar)
    (t n : ℕ) : Inbound.serves ⟨ctrl2,t⟩ n = (bar == n) := by
  have hword : ctrl2.testBit 31 = true ∧ ctrl2.testBit 30 = true ∧ ctrl2 / 256 % 8 = bar := by
    rw [hctrl]
    interval_cases bar <;> decide
  simp [Inbound.serves,hword.1,hword.2.1,hword.2.2]

/-- The targets that the tables of the boards set up. -/
def Board.barTarget (ram : DmaRam) : Board → ℕ → Option ℕ
  | .akida1000, 0 => some 0xFCC00000
  | .akida1000, 2 => some 0xF8C00000
  | .akida1000, 4 => some ram.addr
  | .akida1500, 2 => some AKIDA_1500_BAR2_OFFSET
  | .akida1500, 4 => some AKIDA_1500_BAR4_OFFSET
  | _, _ => none

theorem translate_eq (ram : DmaRam) (board : Board) {bar : ℕ} (hbar : bar ∈ [0,2,4]) (off : ℕ) :
    board.translate ram bar off = (board.barTarget ram bar).map (· + off) := by
  obtain ⟨h1000,h1500⟩ := setupIatu_inbound ram
  have hserves : ∀ t n, Inbound.serves ⟨0xC0080000,t⟩ n = (0 == n) :=
    serves_bar (by decide) (by norm_num)
  have hserves2 : ∀ t n, Inbound.serves ⟨0xC0080200,t⟩ n = (2 == n) :=
    serves_bar (by decide) (by norm_num)
  have hserves4 : ∀ t n, Inbound.serves ⟨0xC0080400,t⟩ n = (4 == n) :=
    serves_bar (by decide) (by norm_num)
  have hoff : ∀ n, Inbound.serves ⟨0,0⟩ n = false := fun n => rfl
  cases board <;>
    simp only [Board.translate,Iatu.target,h1000,h1500] <;>
    fin_cases hbar <;>
    simp [List.find?,hserves,hserves2,hserves4,hoff,Board.barTarget]

end AkidaEdma.Driver
