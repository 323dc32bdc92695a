import AkidaEdma.Driver.Iatu
import AkidaEdma.Engine.LinkedList

/-! # Where the linked lists lie

The layout macros of the four builds, the regions that `akida_probe` hands to the engine, and
the device addresses at which `write_chunk` puts its bytes.
-/
namespace AkidaEdma.Driver
open DwEdma LittleEndian

/-- `AKIDA_DMA_RAM_PHY_*_LL_OFFSET` and `_LL_SIZE` of a channel. -/
structure LlArea where
  offset : ℕ
  size : ℕ
  deriving DecidableEq, Repr

/-- The `AKIDA_DMA_RAM_PHY_*` macros of a build, without those of the data areas. -/
structure Layout where
  ram : DmaRam
  tx0 : LlArea
  tx1 : LlArea
  rx0 : LlArea
  rx1 : LlArea

/-- The macros of akida-pcie-core.c and the files that can replace them. -/
inductive Build | plain | dmaRamPhy4MB | dmaRamPhyMin | dmaSramPhy
  deriving DecidableEq, Repr

def Build.layout : Build → Layout
  | .plain =>
    ⟨defaultRam,⟨0x00 + 0x0,0x40⟩,⟨0x40 + 0x0,0x40⟩,
      ⟨0x80 + 0x0,0x40⟩,⟨0xC0 + 0x0,0x40⟩⟩
  | .dmaRamPhy4MB =>
    ⟨⟨0x20000000,0x0,0x400000,by decide⟩,⟨0x00000000 + 0x0,0x40000⟩,⟨0x00040000 + 0x0,0x40000⟩,
      ⟨0x00080000 + 0x0,0x40000⟩,⟨0x000C0000 + 0x0,0x40000⟩⟩
  | .dmaRamPhyMin =>
    ⟨⟨0x20000000,0x0,0xC0,by decide⟩,⟨0x00000000 + 0x0,0x30⟩,⟨0x00000030 + 0x0,0x30⟩,
      ⟨0x00000060 + 0x0,0x30⟩,⟨0x00000090 + 0x0,0x30⟩⟩
  | .dmaSramPhy =>
    ⟨⟨0x10000000,0x60000,0x100,by decide⟩,⟨0x00000000 + 0x60000,0x40⟩,
      ⟨0x00000040 + 0x60000,0x40⟩,⟨0x00000080 + 0x60000,0x40⟩,⟨0x000000c0 + 0x60000,0x40⟩⟩

/-- The core that the map format of a board selects. -/
def Board.core : Board → Core
  | .akida1000 => .edmaV0
  | .akida1500 => .hdmaV0

/-- An `ll_region` of the probe; `bar4` is where BAR 4 is mapped. -/
def Layout.region (l : Layout) (bar4 : ℕ) (area : LlArea) : Region :=
  ⟨l.ram.addr + area.offset,bar4 + area.offset,area.size⟩

/-- The engine chip as `akida_probe` fills it in: no flag, no address callback. -/
def Layout.edmaChip (l : Layout) (bar4 : ℕ) : Chip where
  isLocal := false
  llRegionWr
    | 0 => l.region bar4 l.tx0
    | 1 => l.region bar4 l.tx1
    | _ => ⟨0,0,0⟩
  llRegionRd
    | 0 => l.region bar4 l.rx0
    | 1 => l.region bar4 l.rx1
    | _ => ⟨0,0,0⟩
  pciAddress := none

def EDMA_LL_SZ : ℕ := 24

/-- `ll_max` of `dw_edma_channel_setup`, a `u32`. -/
def llMax (r : Region) : ℕ := u32 (u32 (r.sz / EDMA_LL_SZ) + 4294967295)

/-- One of the two channels a direction, as `dw_edma_channel_setup` leaves it and whatever
was done with it since. -/
structure SetUp (chip : Chip) (chan : Chan) : Prop where
  id_lt : chan.id < 2
  llMax_eq : chan.llMax = llMax (chan.region chip)

/-- A byte that `write_chunk` stores: one that it changes in some memory. -/
def Stored (core : Core) (force32 : Bool) (chip : Chip) (chunk : Chunk) (x : ℕ) : Prop :=
  ∃ m, core.writeChunk force32 chip chunk m x ≠ m x

/-- The addresses of a region as the device sees them. -/
def deviceArea (r : Region) : Set ℕ := Set.Ico r.paddr (r.paddr + r.sz)

/-- The region of a channel given by its direction and its number. -/
def llRegion (chip : Chip) (dir : Dir) (id : ℕ) : Region :=
  if dir = .write then chip.llRegionWr id else chip.llRegionRd id

/-- A stored byte lies at the address that the engine reads it from, and in no area but that
of its channel. -/
structure PlacedAt (l : Layout) (bar4 : ℕ) (chan : Chan) (chunk : Chunk) (x a : ℕ) : Prop where
  vaddr_le : chunk.llRegion.vaddr ≤ x
  engine : a = chunk.llRegion.paddr + (x - chunk.llRegion.vaddr)
  inside : a ∈ deviceArea (chan.region (l.edmaChip bar4))
  reserved : a ∈ Set.Ico l.ram.start l.ram.stop
  outside : ∀ dir id, id < 2 → (dir,id) ≠ (chan.dir,chan.id) →
    a ∉ deviceArea (llRegion (l.edmaChip bar4) dir id)

/-- Every byte of the list of a chunk is placed. -/
def Placed (board : Board) (l : Layout) (bar4 : ℕ) (chan : Chan) (force32 : Bool)
    (chunk : Chunk) : Prop :=
  ∀ x, Stored board.core force32 (l.edmaChip bar4) chunk x →
    ∃ a, board.translate l.ram 4 (x - bar4) = some a ∧ PlacedAt l bar4 chan chunk x a

/-! ## The areas of a layout -/

def Layout.area (l : Layout) : Dir → ℕ → LlArea
  | .write, 0 => l.tx0
  | .write, _ => l.tx1
  | .read, 0 => l.rx0
  | .read, _ => l.rx1

/-- The areas have room for the elements that `ll_max` admits and for the link, lie in the
reserved area and are apart. -/
structure Layout.Sound (l : Layout) : Prop where
  room : ∀ dir id, id < 2 → 24 * llMax ⟨0,0,(l.area dir id).size⟩ + 24 ≤ (l.area dir id).size
  positive : ∀ dir id, id < 2 → 1 ≤ llMax ⟨0,0,(l.area dir id).size⟩
  reserved : ∀ dir id, id < 2 → l.ram.offset ≤ (l.area dir id).offset ∧
    (l.area dir id).offset + (l.area dir id).size ≤ l.ram.offset + l.ram.size
  apart : ∀ dir id dir' id', id < 2 → id' < 2 → (dir',id') ≠ (dir,id) →
    (l.area dir id).offset + (l.area dir id).size ≤ (l.area dir' id').offset ∨
    (l.area dir' id').offset + (l.area dir' id').size ≤ (l.area dir id).offset

theorem build_sound (build : Build) : build.layout.Sound where
  room dir id hid := by cases build <;> cases dir <;> interval_cases id <;> decide
  positive dir id hid := by cases build <;> cases dir <;> interval_cases id <;> decide
  reserved dir id hid := by cases build <;> cases dir <;> interval_cases id <;> decide
  apart dir id dir' id' hid hid' hne := by
    cases build <;> cases dir <;> interval_cases id <;> cases dir' <;> interval_cases id' <;>
      first | exact absurd rfl hne | decide

theorem llMax_lt (build : Build) (dir : Dir) {id : ℕ} (hid : id < 2) :
    llMax ⟨0,0,(build.layout.area dir id).size⟩ < 2147483648 := by
  cases build <;> cases dir <;> interval_cases id <;> decide

theorem llRegion_eq (l : Layout) (bar4 : ℕ) (dir : Dir) {id : ℕ} (hid : id < 2) :
    llRegion (l.edmaChip bar4) dir id = l.region bar4 (l.area dir id) := by
  cases dir <;> interval_cases id <;> rfl

/-- The bytes that are stored lie between the first element and the end of the link. -/
theorem stored_bounds {core : Core} {force32 : Bool} {chip : Chip} {chunk : Chunk} {x : ℕ}
    (halloc : chunk.burstsAlloc = chunk.burst.length) (h : Stored core force32 chip chunk x) :
    chunk.llRegion.vaddr ≤ x ∧ x < chunk.llRegion.vaddr + 24 * chunk.burst.length + 16 := by
  obtain ⟨m,hm⟩ := h
  by_contra hout
  apply hm
  apply writeChunk_outside halloc
  omega

theorem stored_link {chunk : Chunk} (halloc : chunk.burstsAlloc = chunk.burst.length)
    (core : Core) (force32 : Bool) (chip : Chip) :
    Stored core force32 chip chunk (chunk.llRegion.vaddr + 24 * chunk.burst.length) := by
  refine ⟨fun _ => 0#8,?_⟩
  have hbyte : ∀ cb, byte (linkControl cb).toNat 0 ≠ 0#8 := by decide
  have hstore := @Footprint.overwrite_inside _ (chunk.llRegion.vaddr + 24 * chunk.burst.length) 4 0
    (byte (linkControl chunk.cb).toNat)
    (store (chunk.llRegion.vaddr + 24 * chunk.burst.length + 8) 8 chunk.llRegion.paddr
      (storeElements chunk.llRegion.vaddr (elements chip.isLocal chunk.cb chunk.burst)
        fun _ => 0#8)) (by decide)
  rw [writeChunk_eq halloc,storeLink,store]
  exact fun h => hbyte chunk.cb (hstore.symm.trans h)

/-- A chunk is placed exactly when BAR 4 is translated to the address of the layout. -/
theorem placed_iff_target {l : Layout} (hl : l.Sound) {board : Board} {bar4 t : ℕ}
    (ht : board.barTarget l.ram 4 = some t) {chan : Chan} (hchan : SetUp (l.edmaChip bar4) chan)
    {chunk : Chunk} (hexact : chunk.Exact (chan.region (l.edmaChip bar4)))
    (hroom : chunk.burst.length ≤ chan.llMax) (force32 : Bool) :
    Placed board l bar4 chan force32 chunk ↔ t = l.ram.addr := by
  have hid := hchan.id_lt
  have hregion : chan.region (l.edmaChip bar4) = l.region bar4 (l.area chan.dir chan.id) :=
    llRegion_eq l bar4 chan.dir hid
  have hsize := hl.room chan.dir chan.id hid
  have hin := hl.reserved chan.dir chan.id hid
  have hmax : chan.llMax = llMax ⟨0,0,(l.area chan.dir chan.id).size⟩ := by
    rw [hchan.llMax_eq,hregion]
    rfl
  have hvaddr : chunk.llRegion.vaddr = bar4 + (l.area chan.dir chan.id).offset := by
    rw [hexact.vaddr,hregion]
    rfl
  have hpaddr : chunk.llRegion.paddr = l.ram.addr + (l.area chan.dir chan.id).offset := by
    rw [hexact.paddr,hregion]
    rfl
  have htranslate : ∀ off, board.translate l.ram 4 off = some (t + off) := by
    intro off
    rw [translate_eq l.ram board (by decide),ht]
    rfl
  constructor
  · intro h
    obtain ⟨a,ha,hplaced⟩ := h _ (stored_link hexact.alloc board.core force32 _)
    rw [htranslate] at ha
    have haddr := Option.some.inj ha
    have hengine := hplaced.engine
    omega
  · rintro rfl x hx
    obtain ⟨hlo,hhi⟩ := stored_bounds hexact.alloc hx
    refine ⟨_,htranslate _,hlo,by omega,?_,?_,?_⟩
    · rw [hregion,deviceArea,Set.mem_Ico]
      dsimp only [Layout.region]
      omega
    · rw [Set.mem_Ico,DmaRam.start,DmaRam.stop]
      omega
    · intro dir id hid' hne
      have hapart := hl.apart chan.dir chan.id dir id hid hid' hne
      rw [llRegion_eq l bar4 dir hid',deviceArea,Set.mem_Ico]
      dsimp only [Layout.region]
      omega

/-- The lists of every build are placed on both boards, but for the SRAM layout on the board
whose BAR 4 has a fixed target. -/
theorem chunk_placed_iff {build : Build} {board : Board} {bar4 vd : ℕ} {chan : Chan}
    (hchan : SetUp (build.layout.edmaChip bar4) chan) {x : Transfer} {d : Desc}
    (hd : deviceTransfer (build.layout.edmaChip bar4) chan vd x = some d) {chunk : Chunk}
    (hchunk : chunk ∈ d.chunk) (force32 : Bool) :
    Placed board build.layout bar4 chan force32 chunk ↔
      ¬ (board = .akida1500 ∧ build = .dmaSramPhy) := by
  have hsound := build_sound build
  have hll : 1 ≤ chan.llMax := by
    have hregion : chan.region (build.layout.edmaChip bar4) = _ :=
      llRegion_eq build.layout bar4 chan.dir hchan.id_lt
    rw [hchan.llMax_eq,hregion]
    exact hsound.positive chan.dir chan.id hchan.id_lt
  have hbuilt := deviceTransfer_built hll hd
  have hiff : ∀ t, board.barTarget build.layout.ram 4 = some t →
      (Placed board build.layout bar4 chan force32 chunk ↔ t = build.layout.ram.addr) :=
    fun t ht => placed_iff_target hsound ht hchan (hbuilt.exact chunk hchunk)
      (hbuilt.room chunk hchunk) force32
  cases board with
  | akida1000 => simp [hiff _ rfl]
  | akida1500 =>
    rw [hiff _ rfl]
    cases build <;> decide

/-- In every build the counters of `write_chunk` stay within an `int`, after any part of the
bursts of a chunk. -/
theorem counters_lt {build : Build} {bar4 vd : ℕ} {chan : Chan}
    (hchan : SetUp (build.layout.edmaChip bar4) chan) {x : Transfer} {d : Desc}
    (hd : deviceTransfer (build.layout.edmaChip bar4) chan vd x = some d) {chunk : Chunk}
    (hchunk : chunk ∈ d.chunk) (f : Format) (force32 : Bool) (chip : Chip) (control : BitVec 32)
    (m : LittleEndian.Memory) {bs : List Burst} (hbs : bs <+: chunk.burst) :
    let s := bs.foldl (Fill.next f force32 chip chunk) ⟨0,chunk.burstsAlloc,control,m⟩
    s.i < 2147483648 ∧ 0 ≤ s.j ∧ s.j < 2147483648 := by
  have hregion : chan.region (build.layout.edmaChip bar4) = _ :=
    llRegion_eq build.layout bar4 chan.dir hchan.id_lt
  have hmax : chan.llMax = llMax ⟨0,0,(build.layout.area chan.dir chan.id).size⟩ := by
    rw [hchan.llMax_eq,hregion]
    rfl
  have hll : 1 ≤ chan.llMax := by
    rw [hmax]
    exact (build_sound build).positive chan.dir chan.id hchan.id_lt
  have hbuilt := deviceTransfer_built hll hd
  have hroom := hbuilt.room chunk hchunk
  have halloc := (hbuilt.exact chunk hchunk).alloc
  have hlt := llMax_lt build chan.dir hchan.id_lt
  rw [← hmax] at hlt
  have hle := hbs.length_le
  obtain ⟨hi,hj⟩ := fill_counters f force32 chip chunk bs ⟨0,chunk.burstsAlloc,control,m⟩
  dsimp only at hi hj ⊢
  omega

/-- The first write channel of a build with areas of 64 bytes, configured for address 4096. -/
def firstChan : Chan := ⟨0,.write,1,.none,.idle,true,⟨4096,0⟩,[],[],[]⟩

/-- The chunk of a transfer of 8 bytes on that channel. -/
def firstChunk (build : Build) : Chunk :=
  ⟨[⟨4096,8192,8⟩],1,true,{ build.layout.region 0 build.layout.tx0 with sz := 8 }⟩

theorem firstChunk_built (build : Build) (h : build.layout.tx0.size = 64) :
    SetUp (build.layout.edmaChip 0) firstChan ∧ ∃ d,
      deviceTransfer (build.layout.edmaChip 0) firstChan 0 ⟨.devToMem,.scatterGather [⟨8192,8⟩] 1⟩ =
        some d ∧ firstChunk build ∈ d.chunk := by
  refine ⟨⟨by decide,?_⟩,_,rfl,List.mem_singleton_self _⟩
  change 1 = llMax ⟨0,0,build.layout.tx0.size⟩
  rw [h]
  rfl

/-- The SRAM layout on the first board, and the plain one on the second. -/
theorem firstChunk_placed :
    Placed .akida1000 Build.dmaSramPhy.layout 0 firstChan false (firstChunk .dmaSramPhy) ∧
    Placed .akida1500 Build.plain.layout 0 firstChan false (firstChunk .plain) := by
  obtain ⟨hchan,_,hd,hchunk⟩ := firstChunk_built .dmaSramPhy rfl
  obtain ⟨hchan',_,hd',hchunk'⟩ := firstChunk_built .plain rfl
  exact ⟨(chunk_placed_iff hchan hd hchunk false).mpr (by decide),
    (chunk_placed_iff hchan' hd' hchunk' false).mpr (by decide)⟩

/-- With the SRAM layout the second board puts the list elsewhere than the engine reads it. -/
theorem firstChunk_misplaced :
    (SetUp (Build.dmaSramPhy.layout.edmaChip 0) firstChan ∧ ∃ d,
      deviceTransfer (Build.dmaSramPhy.layout.edmaChip 0) firstChan 0
        ⟨.devToMem,.scatterGather [⟨8192,8⟩] 1⟩ = some d ∧ firstChunk .dmaSramPhy ∈ d.chunk) ∧
    ¬ Placed .akida1500 Build.dmaSramPhy.layout 0 firstChan false (firstChunk .dmaSramPhy) := by
  refine ⟨firstChunk_built .dmaSramPhy rfl,?_⟩
  intro h
  have hstored := @stored_link (firstChunk .dmaSramPhy) rfl .hdmaV0 false
    (Build.dmaSramPhy.layout.edmaChip 0)
  obtain ⟨a,ha,hplaced⟩ := h _ hstored
  have hlow : a = 0x20060000 + 24 := by
    rw [translate_eq _ _ (by decide)] at ha
    exact (Option.some.inj ha).symm
  have hengine : a = 0x10060000 + 24 := hplaced.engine
  omega

end AkidaEdma.Driver
