import AkidaEdma.Driver.Iatu
import AkidaEdma.Engine.HandleInt
import AkidaEdma.Engine.MsiConfig

/-! # The first BAR of the akida_1500

The registers of the iATU and those of the HDMA core lie in one BAR, and the core is given it
from offset 0 on. Here are the writes of both, in any order after `akida_1500_setup_iatu`.
-/
namespace AkidaEdma.Driver
open DwEdma V0Core Registers HandleInt

/-- `writel` of a table entry to `mmio_bar0`. -/
def IatuConf.write (s : RegFile) (conf : IatuConf) : RegFile :=
  s.set .hdmaNative conf.addr (BitVec.ofNat 32 conf.val)

/-- The outbound region for a host area of this size at this DMA address. -/
def hostDdrConf (size dmaAddr : ℕ) : List IatuConf :=
  if size ≠ 0 then
    [⟨0x404,0x00000000⟩,⟨0x400,0x00000000⟩,⟨0x408,AKIDA_1500_HOST_DDR_BASE⟩,⟨0x40c,0x00000000⟩,
      ⟨0x410,AKIDA_1500_HOST_DDR_BASE + size - 1⟩,⟨0x414,dmaAddr % 4294967296⟩,
      ⟨0x418,dmaAddr / 4294967296⟩,⟨0x404,0x80000000⟩]
  else []

/-- The writes of `akida_1500_setup_iatu`, in order. -/
def setupConf (size dmaAddr : ℕ) : List IatuConf :=
  akida1500IatuConfTable ++ hostDdrConf size dmaAddr

/-- `akida_1500_setup_iatu`. -/
def akida1500SetupIatu (size dmaAddr : ℕ) (s : RegFile) : RegFile :=
  (setupConf size dmaAddr).foldl IatuConf.write s

/-- The engine with the two channels of each direction that the driver sets up. -/
def akida1500Dw : Dw := ⟨.hdmaV0,2,2,Nat.le_of_ble_eq_true rfl,Nat.le_of_ble_eq_true rfl⟩

/-- A channel of the driver. -/
abbrev UsedChan := Dir × Fin 2

def UsedChan.hw (c : UsedChan) : HwChan :=
  (c.1,⟨c.2.val,Nat.lt_of_lt_of_le c.2.isLt (Nat.le_of_ble_eq_true rfl)⟩)

theorem UsedChan.hw_lt (c : UsedChan) : c.hw.2.val < 2 := c.2.isLt

/-- `dw_hdma_v0_core_start` of a chunk; its list goes to BAR 4. -/
def startChunk (c : HwChan) (chunk : Chunk) (first : Bool) (s : RegFile) : RegFile :=
  hdmaV0CoreStart false c.1 c.2 chunk.llRegion.paddr first s

/-- What a callback of the handler starts on its channel, if anything. -/
abbrev Callback := HwChan → Irq → Option (Chunk × Bool)

/-- The handling of one interrupt that was found: it is cleared and called back. -/
def serve (next : Callback) (s : RegFile) (e : HwChan × Irq) : RegFile :=
  let s := s.set .hdmaNative (hdmaV0ChRegs (dirVal e.1.1) e.1.2 + INT_CLEAR)
    (intBits .hdmaV0 e.2 e.1.2)
  match next e.1 e.2 with
  | some (chunk,first) => startChunk e.1 chunk first s
  | none => s

/-- `dw_hdma_v0_core_handle_int`. -/
def handleInt (irq : DwIrq) (dir : Dir) (next : Callback) (s : RegFile) : RegFile :=
  (akida1500Dw.handleInt irq dir).foldl
    (fun s read => (akida1500Dw.found irq s.word read).foldl (serve next) s) s

/-- The operations of the engine, and the hardware when it changes the status of a channel. -/
inductive Bar0Op
  | coreOff
  | chConfig (c : UsedChan) (msi : MsiMsg)
  | coreStart (c : UsedChan) (chunk : Chunk) (first : Bool)
  | handleInt (irq : DwIrq) (dir : Dir) (next : Callback)
  | chStatus (c : UsedChan)
  | hardware (c : UsedChan) (chStat intStat : Word)

def Bar0Op.run (s : RegFile) : Bar0Op → RegFile
  | .coreOff => hdmaV0CoreOff s
  | .chConfig c msi => hdmaV0ChConfig c.hw.1 c.hw.2 msi s
  | .coreStart c chunk first => startChunk c.hw chunk first s
  | .handleInt irq dir next => Driver.handleInt irq dir next s
  | .chStatus c => (hdmaV0ChStatus c.hw.1 c.hw.2 s).2
  | .hardware c chStat intStat =>
    (s.set .hdmaNative (hdmaV0ChRegs (dirVal c.hw.1) c.hw.2 + CH_STAT) chStat).set .hdmaNative
      (hdmaV0ChRegs (dirVal c.hw.1) c.hw.2 + INT_STAT) intStat

def runBar0 (ops : List Bar0Op) (s : RegFile) : RegFile := ops.foldl Bar0Op.run s

/-! ## Operations on a channel -/

/-- The registers of a used channel lie below those of the iATU. -/
theorem set_channel_word {id : Fin 8} (hid : id.val < 2) (dir : Dir) {r : ℕ} (hr : r < 0x100)
    (v : Word) (s : RegFile) {a : ℕ} (ha : 0x400 ≤ a) :
    (s.set .hdmaNative (hdmaV0ChRegs (dirVal dir) id + r) v).word a = s.word a := by
  apply set_word_ne
  unfold hdmaV0ChRegs
  split_ifs <;> omega

theorem startChunk_word {c : HwChan} (hc : c.2.val < 2) (chunk : Chunk) (first : Bool)
    (s : RegFile) {a : ℕ} (ha : 0x400 ≤ a) : (startChunk c chunk first s).word a = s.word a := by
  have hset : ∀ r < 0x100, ∀ v (t : RegFile),
      (t.set .hdmaNative (hdmaV0ChRegs (dirVal c.1) c.2 + r) v).word a = t.word a :=
    fun r hr v t => set_channel_word hc c.1 hr v t ha
  cases first with
  | false =>
    simp only [startChunk,hdmaV0CoreStart,Bool.false_eq_true,if_false,
      hset DOORBELL (by decide),hset CYCLE_SYNC (by decide)]
  | true =>
    simp only [startChunk,hdmaV0CoreStart,if_true,hset DOORBELL (by decide),
      hset CYCLE_SYNC (by decide),hset HDMA_LLP_MSB (by decide),hset HDMA_LLP_LSB (by decide),
      hset CONTROL1 (by decide),hset INT_SETUP (by decide),hset CH_EN (by decide)]

theorem chConfig_word {c : HwChan} (hc : c.2.val < 2) (msi : MsiMsg) (s : RegFile) {a : ℕ}
    (ha : 0x400 ≤ a) : (hdmaV0ChConfig c.1 c.2 msi s).word a = s.word a := by
  have hset : ∀ r < 0x100, ∀ v (t : RegFile),
      (t.set .hdmaNative (hdmaV0ChRegs (dirVal c.1) c.2 + r) v).word a = t.word a :=
    fun r hr v t => set_channel_word hc c.1 hr v t ha
  simp only [hdmaV0ChConfig,hset MSI_MSGDATA (by decide),hset MSI_ABORT_MSB (by decide),
    hset MSI_ABORT_LSB (by decide),hset MSI_STOP_MSB (by decide),hset MSI_STOP_LSB (by decide)]

theorem serve_word (next : Callback) (s : RegFile) {e : HwChan × Irq} (he : e.1.2.val < 2) {a : ℕ}
    (ha : 0x400 ≤ a) : (serve next s e).word a = s.word a := by
  unfold serve
  dsimp only
  split
  · rw [startChunk_word he _ _ _ ha,set_channel_word he _ (by decide) _ _ ha]
  · rw [set_channel_word he _ (by decide) _ _ ha]

/-- The two channels of a direction in `dw->chan`. -/
theorem chan_used : ∀ (dir : Dir) (pos : Fin 8), pos.val < akida1500Dw.total dir →
    (akida1500Dw.chan (pos + akida1500Dw.off dir)).2.val < 2 := by
  intro dir
  cases dir <;> decide

/-- The handler finds interrupts of used channels only. -/
theorem found_used {irq : DwIrq} {dir : Dir} {word : ℕ → Word} {read : Read}
    (hread : read ∈ akida1500Dw.handleInt irq dir) {e : HwChan × Irq}
    (he : e ∈ akida1500Dw.found irq word read) : e.1.2.val < 2 := by
  obtain ⟨pos,hpos,rfl⟩ := List.mem_map.mp
    (show read ∈ hdmaV0HandleInt akida1500Dw irq dir from hread)
  have hlt : pos.val < akida1500Dw.total dir := by
    have hmem := (List.mem_filter.mp hpos).2
    rw [Bool.and_eq_true,decide_eq_true_eq] at hmem
    exact hmem.1
  have hchan : e.1 = akida1500Dw.chan (pos + akida1500Dw.off dir) := by
    simp only [Dw.found,List.mem_append] at he
    rcases he with he | he <;> split_ifs at he <;>
      first | exact absurd he List.not_mem_nil | rw [List.mem_singleton.mp he]
  rw [hchan]
  exact chan_used dir pos hlt

theorem handleInt_word (irq : DwIrq) (dir : Dir) (next : Callback) (s : RegFile) {a : ℕ}
    (ha : 0x400 ≤ a) : (handleInt irq dir next s).word a = s.word a := by
  have hserve : ∀ (es : List (HwChan × Irq)) (t : RegFile), (∀ e ∈ es, e.1.2.val < 2) →
      (es.foldl (serve next) t).word a = t.word a := by
    intro es
    induction es with
    | nil => intro t _; rfl
    | cons e es ih =>
      intro t hes
      rw [List.foldl_cons,ih _ fun e he => hes e (List.mem_cons_of_mem _ he),
        serve_word next t (hes e List.mem_cons_self) ha]
  have hreads : ∀ (reads : List Read) (t : RegFile),
      (∀ read ∈ reads, read ∈ akida1500Dw.handleInt irq dir) →
      (reads.foldl (fun s read => (akida1500Dw.found irq s.word read).foldl (serve next) s)
        t).word a = t.word a := by
    intro reads
    induction reads with
    | nil => intro t _; rfl
    | cons read reads ih =>
      intro t hmem
      rw [List.foldl_cons,ih _ fun r hr => hmem r (List.mem_cons_of_mem _ hr),hserve]
      exact fun e he => found_used (hmem read List.mem_cons_self) he
  exact hreads _ s fun _ h => h

/-! ## The sweep over all channels -/

/-- `core_off` writes at three offsets of each of the sixteen blocks, 0 at the first. -/
theorem hdmaV0CoreOff_word (s : RegFile) {a : ℕ} (h88 : a % 0x100 ≠ INT_SETUP)
    (h8c : a % 0x100 ≠ INT_CLEAR) :
    (hdmaV0CoreOff s).word a = if a % 0x100 = 0 ∧ a < 0x1000 then 0#32 else s.word a := by
  have hsweep : ∀ n, ((List.range n).foldl hdmaV0ChOff s).word a =
      if a % 0x100 = 0 ∧ a < 0x200 * n then 0#32 else s.word a := by
    intro n
    induction n with
    | zero => simp
    | succ n ih =>
      have hne : ∀ (dir : Dir) r, r < 0x100 → a % 0x100 ≠ r → ∀ v (t : RegFile),
          (t.set .hdmaNative (hdmaV0ChRegs (dirVal dir) n + r) v).word a = t.word a := by
        intro dir r hr hmod v t
        apply set_word_ne
        unfold hdmaV0ChRegs
        split_ifs <;> omega
      have hwr := hne .write
      have hrd := hne .read
      simp only [dirVal] at hwr hrd
      rw [List.range_succ,List.foldl_append,List.foldl_cons,List.foldl_nil]
      simp only [hdmaV0ChOff,set_word (inWindow_hdma (hdmaV0ChRegs 0 n + CH_EN)),
        set_word (inWindow_hdma (hdmaV0ChRegs 1 n + CH_EN)),
        hwr _ (show INT_SETUP < 0x100 by decide) h88,hrd _ (show INT_SETUP < 0x100 by decide) h88,
        hwr _ (show INT_CLEAR < 0x100 by decide) h8c,hrd _ (show INT_CLEAR < 0x100 by decide) h8c,
        ih]
      have hw : hdmaV0ChRegs 0 n = 0x200 * n := rfl
      have hr : hdmaV0ChRegs 1 n = 0x200 * n + 0x100 := rfl
      simp only [hw,hr,CH_EN,Nat.add_zero]
      by_cases hread : a = 0x200 * n + 0x100
      · rw [if_pos hread,if_pos (by omega)]
      · rw [if_neg hread]
        by_cases hwrite : a = 0x200 * n
        · rw [if_pos hwrite,if_pos (by omega)]
        · rw [if_neg hwrite]
          exact if_congr (by omega) rfl rfl
  exact hsweep 8

/-! ## The registers of the iATU -/

/-- The offsets that are set up lie above the used channels; where `core_off` writes too, the
last value is 0. -/
theorem setupConf_apart (size dmaAddr : ℕ) : ∀ conf ∈ setupConf size dmaAddr,
    0x400 ≤ conf.addr ∧ conf.addr % 0x100 ≠ INT_SETUP ∧ conf.addr % 0x100 ≠ INT_CLEAR ∧
      (conf.addr % 0x100 = 0 → conf.val = 0) := by
  intro conf hconf
  unfold setupConf akida1500IatuConfTable hostDdrConf at hconf
  rcases List.mem_append.mp hconf with h | h
  · simp only [List.mem_cons,List.not_mem_nil,or_false] at h
    rcases h with rfl | rfl | rfl | rfl | rfl | rfl <;> simp [INT_SETUP,INT_CLEAR]
  · split_ifs at h
    · simp only [List.mem_cons,List.not_mem_nil,or_false] at h
      rcases h with rfl | rfl | rfl | rfl | rfl | rfl | rfl | rfl <;> simp [INT_SETUP,INT_CLEAR]
    · exact absurd h List.not_mem_nil

theorem run_keeps {size dmaAddr : ℕ} {conf : IatuConf} (hconf : conf ∈ setupConf size dmaAddr)
    {s : RegFile} (hs : s.word conf.addr = BitVec.ofNat 32 conf.val) (op : Bar0Op) :
    (op.run s).word conf.addr = BitVec.ofNat 32 conf.val := by
  obtain ⟨hlow,h88,h8c,hzero⟩ := setupConf_apart size dmaAddr conf hconf
  rw [← hs]
  cases op with
  | coreOff =>
    rw [Bar0Op.run,hdmaV0CoreOff_word s h88 h8c]
    split_ifs with hblock
    · rw [hs,hzero hblock.1]
    · rfl
  | chConfig c msi => exact chConfig_word c.hw_lt msi s hlow
  | coreStart c chunk first => exact startChunk_word c.hw_lt chunk first s hlow
  | handleInt irq dir next => exact handleInt_word irq dir next s hlow
  | chStatus c => rfl
  | hardware c chStat intStat =>
    rw [Bar0Op.run,set_channel_word c.hw_lt _ (show INT_STAT < 0x100 by decide) _ _ hlow,
      set_channel_word c.hw_lt _ (show CH_STAT < 0x100 by decide) _ _ hlow]

theorem setup_establishes : LastWrite.Establishes IatuConf.write IatuConf.addr (fun _ => True)
    fun conf s => s.word conf.addr = BitVec.ofNat 32 conf.val where
  own s _ _ := set_word_same (inWindow_hdma _) _ s
  keep s _ _ _ _ hne h := (set_word_ne _ hne.symm _ s).trans h

theorem akida1500SetupIatu_word {size dmaAddr : ℕ} (a : ℕ) (conf : IatuConf) (s : RegFile)
    (ha : LastWrite.last IatuConf.addr a (setupConf size dmaAddr) = some conf) :
    (akida1500SetupIatu size dmaAddr s).word a = BitVec.ofNat 32 conf.val := by
  obtain ⟨_,rfl⟩ := LastWrite.last_mem ha
  exact setup_establishes.run s (fun _ _ => trivial) ha

/-- Whatever the engine does, each register that `akida_1500_setup_iatu` wrote has the last
value that it wrote there. -/
theorem iatu_survives (size dmaAddr : ℕ) (s : RegFile) (ops : List Bar0Op) {a : ℕ}
    {conf : IatuConf} (ha : LastWrite.last IatuConf.addr a (setupConf size dmaAddr) = some conf) :
    (runBar0 ops (akida1500SetupIatu size dmaAddr s)).word a = BitVec.ofNat 32 conf.val := by
  obtain ⟨hconf,rfl⟩ := LastWrite.last_mem ha
  induction ops using List.reverseRecOn with
  | nil => exact akida1500SetupIatu_word _ conf s ha
  | append_singleton ops op ih =>
    rw [runBar0,List.foldl_append,List.foldl_cons,List.foldl_nil]
    exact run_keeps hconf ih op

/-- The control word of the outbound region, through a probe, a start and a remove. -/
theorem outbound_survives : (runBar0
    [.coreOff,.chConfig (.write,1) ⟨0xfee00000#32,0#32,0x41#32⟩,
      .coreStart (.write,1) ⟨[⟨0,0,4⟩],1,true,⟨0x20000000,0,4⟩⟩ true,
      .handleInt ⟨3#32,0#32⟩ .write (fun _ _ => none),.coreOff]
    (akida1500SetupIatu 0x1000000 0x123400000 ⟨fun _ => 0#32,fun _ _ _ => 0#32⟩)).word 0x404 =
      0x80000000#32 :=
  iatu_survives 0x1000000 0x123400000 _ _ (show LastWrite.last IatuConf.addr 0x404
    (setupConf 0x1000000 0x123400000) = some ⟨0x404,0x80000000⟩ by decide)

end AkidaEdma.Driver
