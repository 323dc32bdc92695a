import AkidaEdma.Driver.Bar0
import AkidaEdma.Driver.MmapPages

/-! # The host area in its four views

The buffer that was allocated, the window of mmap, the arguments of `dma_mmap_attrs`, and the
outbound region of the iATU.
-/
namespace AkidaEdma.Driver.MmapPages
open DwEdma V0Core Registers

/-- The first buffer that the allocator gives, from 16 MiB down to 1 MiB. -/
def allocated (alloc : ℕ → Option (ℕ × ℕ)) : Option HostDdr :=
  [24,23,22,21,20].findSome? fun k => (alloc (2^k)).map fun a => ⟨2^k,a.1,a.2⟩

/-- The outbound region 0: from base to limit, which share their upper half, to the target. -/
structure Outbound where
  enabled : Bool
  base : ℕ
  limit : ℕ
  target : ℕ
  deriving DecidableEq, Repr

def outbound (s : RegFile) : Outbound :=
  let reg := fun a => (s.word a).toNat
  ⟨(s.word 0x404).getLsbD 31,4294967296 * reg 0x40c + reg 0x408,
    4294967296 * reg 0x40c + reg 0x410,4294967296 * reg 0x418 + reg 0x414⟩

/-- The host bus address of a device address. -/
def Outbound.translate (r : Outbound) (d : ℕ) : Option ℕ :=
  if r.enabled ∧ r.base ≤ d ∧ d ≤ r.limit then some (r.target + (d - r.base)) else none

/-- The bound check of the DMA layer. -/
def dmaInBounds (size off pages : ℕ) : Bool :=
  decide (off < (size + 4095) / 4096) && decide (pages ≤ (size + 4095) / 4096 - off)

/-- The BARs of a device that was probed, as far as they matter here. -/
structure Present (dev : AkidaDev) : Prop where
  fits : ∀ n, (dev.bar n).start + (dev.bar n).len ≤ 18446744073709551616
  absent : (dev.bar 2).len = 0 → (dev.bar 2).mem = false
  bar4 : (dev.bar 4).len ≠ 0

/-- No window of a BAR contains the pages that are asked for. -/
def OutsideBars (dev : AkidaDev) (vma : VmArea) : Prop :=
  ∀ n w, window .akida1500 n = some w →
    ¬ (w ≤ vma.vmPgoff ∧ vma.vmPgoff + vma.pages ≤ w + (dev.bar n).pages)

/-- The pages that are asked for lie in a buffer that is seen at the base. -/
def Inside (vma : VmArea) (area : HostDdr) : Prop :=
  AKIDA_1500_HOST_DDR_BASE ≤ 4096 * vma.vmPgoff ∧
    4096 * (vma.vmPgoff + vma.pages) ≤ AKIDA_1500_HOST_DDR_BASE + area.size

instance (vma : VmArea) (area : HostDdr) : Decidable (Inside vma area) :=
  inferInstanceAs (Decidable (_ ∧ _))

/-- A request and the device agree with the buffer that was allocated. -/
structure Agrees (alloc : ℕ → Option (ℕ × ℕ)) (dev : AkidaDev) (vma : VmArea) (s : RegFile) :
    Prop where
  served : (∃ off cpuAddr dmaAddr size,
      mmap .akida1500 dev vma = .dmaMmapAttrs off cpuAddr dmaAddr size) ↔
    ∃ area, allocated alloc = some area ∧ Inside vma area
  buffer : ∀ off cpuAddr dmaAddr size,
    mmap .akida1500 dev vma = .dmaMmapAttrs off cpuAddr dmaAddr size →
    allocated alloc = some ⟨size,cpuAddr,dmaAddr⟩ ∧
      AKIDA_1500_HOST_DDR_BASE + 4096 * off = 4096 * vma.vmPgoff
  bound : ∀ off cpuAddr dmaAddr size area,
    mmap .akida1500 dev vma = .dmaMmapAttrs off cpuAddr dmaAddr size →
    allocated alloc = some area → ∀ off' pages', dmaInBounds size off' pages' = true →
      4096 * (off' + pages') ≤ area.size
  window : ∀ area, allocated alloc = some area → ∀ d,
    (outbound (akida1500SetupIatu dev.hostDdr.size dev.hostDdr.dmaAddr s)).translate d =
      if AKIDA_1500_HOST_DDR_BASE ≤ d ∧ d ≤ AKIDA_1500_HOST_DDR_BASE + area.size - 1 then
        some (area.dmaAddr + (d - AKIDA_1500_HOST_DDR_BASE))
      else none
  refused : allocated alloc = none → mmap .akida1500 dev vma = .einval ∧
    ∀ a, 0x400 ≤ a → a < 0x500 →
      (akida1500SetupIatu dev.hostDdr.size dev.hostDdr.dmaAddr s).word a = s.word a

/-! ## The allocation -/

theorem setupHostDdr_allocated (alloc : ℕ → Option (ℕ × ℕ)) :
    akida1500SetupHostDdr alloc = (allocated alloc).getD ⟨0,0,0⟩ := by
  have hmax : AKIDA_1500_HOST_DDR_SIZE_MAX = 2^24 := by decide
  rw [akida1500SetupHostDdr,hmax]
  rcases hostDdrLoop_cases alloc 24 with ⟨h,hall⟩ | ⟨j,cpuAddr,dmaAddr,hj,hj',hsome,hlarger,h⟩
  · have hnone : allocated alloc = none := by
      rw [allocated,List.findSome?_eq_none_iff]
      intro k hk
      rw [hall k (by simp at hk; omega) (by simp at hk; omega),Option.map_none]
    rw [h,hnone]
    rfl
  · have hfirst : allocated alloc = some ⟨2^j,cpuAddr,dmaAddr⟩ := by
      rw [allocated,List.findSome?_eq_some_iff]
      refine ⟨(List.range (24 - j)).map (24 - ·),j,(List.range (j - 20)).map (j - 1 - ·),?_,?_,?_⟩
      · interval_cases j <;> rfl
      · rw [hsome,Option.map_some]
      · intro k hk
        obtain ⟨i,hi,rfl⟩ := List.mem_map.mp hk
        rw [List.mem_range] at hi
        rw [hlarger _ (by omega) (by omega),Option.map_none]
    rw [h,hfirst]
    rfl

/-- A buffer is made of whole pages, at most 16 MiB. -/
theorem allocated_size {alloc : ℕ → Option (ℕ × ℕ)} {area : HostDdr}
    (h : allocated alloc = some area) : area.size % 4096 = 0 ∧ 1 ≤ area.size ∧
      area.size ≤ AKIDA_1500_HOST_DDR_SIZE_MAX ∧ alloc area.size = some (area.cpuAddr,area.dmaAddr) := by
  obtain ⟨k,hk,hmap⟩ := List.exists_of_findSome?_eq_some h
  obtain ⟨a,ha,rfl⟩ := Option.map_eq_some_iff.mp hmap
  have hbound : 20 ≤ k ∧ k ≤ 24 := by
    simp only [List.mem_cons,List.not_mem_nil,or_false] at hk
    omega
  have hmax : AKIDA_1500_HOST_DDR_SIZE_MAX = 2^24 := by decide
  refine ⟨Nat.mod_eq_zero_of_dvd (Nat.pow_dvd_pow 2 (show 12 ≤ k by omega)),Nat.one_le_two_pow,?_,ha⟩
  rw [hmax]
  exact Nat.pow_le_pow_right (by decide) hbound.2

/-! ## mmap -/

/-- Outside the windows of the BARs the host area decides. -/
theorem mmap_outsideBars {dev : AkidaDev} {vma : VmArea} (hdev : Present dev)
    (hout : OutsideBars dev vma) (hmax : dev.hostDdr.size ≤ AKIDA_1500_HOST_DDR_SIZE_MAX)
    (hwhole : dev.hostDdr.size % 4096 = 0) : mmap .akida1500 dev vma =
      if dev.hostDdr.size ≠ 0 ∧ Inside vma dev.hostDdr then
        .dmaMmapAttrs (vma.vmPgoff - AKIDA_1500_HOST_DDR_BASE / 4096) dev.hostDdr.cpuAddr
          dev.hostDdr.dmaAddr AKIDA_1500_HOST_DDR_BASE
      else .einval := by
  have hpos := (pages_pos vma).1
  have hddr : (dev.hostDdr.size ≠ 0 ∧ inWindow vma.request (AKIDA_1500_HOST_DDR_BASE / 4096)
      (pageCount dev.hostDdr.size) = true) ↔ (dev.hostDdr.size ≠ 0 ∧ Inside vma dev.hostDdr) := by
    refine and_congr_right fun hsize => ?_
    simp only [AKIDA_1500_HOST_DDR_SIZE_MAX] at hmax
    rw [inWindow_iff,pageCount_eq hsize (by omega),Inside]
    simp only [AKIDA_1500_HOST_DDR_BASE]
    omega
  have hlow : Inside vma dev.hostDdr → vma.vmPgoff < AKIDA_1500_BAR2_OFFSET / 4096 := by
    rintro ⟨_,hhi⟩
    simp only [AKIDA_1500_HOST_DDR_BASE,AKIDA_1500_HOST_DDR_SIZE_MAX,AKIDA_1500_BAR2_OFFSET] at *
    omega
  have hbar : ∀ n w, window .akida1500 n = some w → (dev.bar n).len ≠ 0 →
      inWindow vma.request w (pageCount (dev.bar n).len) = false := by
    intro n w hwindow hlen
    have hfits := hdev.fits n
    rw [Bool.eq_false_iff,ne_eq,inWindow_iff,pageCount_eq hlen (by omega)]
    exact hout n w hwindow
  rw [mmap,akida1500Mmap]
  split
  · -- only an absent BAR 2 has the request in its window
    rename_i hin
    have hlen : (dev.bar 2).len = 0 := by
      by_contra hlen
      rw [hbar 2 _ rfl hlen] at hin
      contradiction
    have hnot : ¬ (dev.hostDdr.size ≠ 0 ∧ Inside vma dev.hostDdr) := by
      rintro ⟨_,hinside⟩
      have hlt := hlow hinside
      have hge := ((inWindow_iff vma _ _).mp hin).1
      omega
    rw [hdev.absent hlen,if_neg (by decide),if_neg hnot]
  · rw [hbar 4 _ rfl hdev.bar4,if_neg (by decide)]
    exact if_congr hddr rfl rfl

/-! ## The outbound region -/

theorem outbound_eq {size dmaAddr : ℕ} (hsize : 1 ≤ size)
    (hmax : size ≤ AKIDA_1500_HOST_DDR_SIZE_MAX) (hdma : dmaAddr < 18446744073709551616)
    (s : RegFile) : outbound (akida1500SetupIatu size dmaAddr s) =
      ⟨true,AKIDA_1500_HOST_DDR_BASE,AKIDA_1500_HOST_DDR_BASE + size - 1,dmaAddr⟩ := by
  have hconf : setupConf size dmaAddr = akida1500IatuConfTable ++
      [⟨0x404,0x00000000⟩,⟨0x400,0x00000000⟩,⟨0x408,AKIDA_1500_HOST_DDR_BASE⟩,⟨0x40c,0x00000000⟩,
        ⟨0x410,AKIDA_1500_HOST_DDR_BASE + size - 1⟩,⟨0x414,dmaAddr % 4294967296⟩,
        ⟨0x418,dmaAddr / 4294967296⟩,⟨0x404,0x80000000⟩] := by
    rw [setupConf,hostDdrConf,if_pos (Nat.one_le_iff_ne_zero.mp hsize)]
  have hword := fun a conf h => akida1500SetupIatu_word a conf s
    (show LastWrite.last IatuConf.addr a (setupConf size dmaAddr) = some conf by rw [hconf]; exact h)
  have hctrl := hword 0x404 ⟨0x404,0x80000000⟩ rfl
  have hbase := hword 0x408 ⟨0x408,AKIDA_1500_HOST_DDR_BASE⟩ rfl
  have hupper := hword 0x40c ⟨0x40c,0x00000000⟩ rfl
  have hlimit := hword 0x410 ⟨0x410,AKIDA_1500_HOST_DDR_BASE + size - 1⟩ rfl
  have hlsb := hword 0x414 ⟨0x414,dmaAddr % 4294967296⟩ rfl
  have hmsb := hword 0x418 ⟨0x418,dmaAddr / 4294967296⟩ rfl
  simp only [AKIDA_1500_HOST_DDR_SIZE_MAX,AKIDA_1500_HOST_DDR_BASE] at *
  simp only [outbound,hctrl,hbase,hupper,hlimit,hlsb,hmsb,BitVec.toNat_ofNat,Outbound.mk.injEq]
  refine ⟨by decide,by norm_num,by omega,by omega⟩

theorem outbound_unset {a : ℕ} (hlo : 0x400 ≤ a) (hhi : a < 0x500) (dmaAddr : ℕ) (s : RegFile) :
    (akida1500SetupIatu 0 dmaAddr s).word a = s.word a := by
  have hkeep : ∀ (t : RegFile) (conf : IatuConf), conf.addr ≠ a → (conf.write t).word a = t.word a :=
    fun t conf hne => set_word_ne _ (Ne.symm hne) _ t
  refine LastWrite.untouched (fun t => t.word a) hkeep s ?_
  rw [LastWrite.last,List.getLast?_eq_none_iff,List.filter_eq_nil_iff]
  intro conf hconf
  simp only [setupConf,hostDdrConf,akida1500IatuConfTable,ne_eq,not_true_eq_false,if_false,
    List.append_nil,List.mem_cons,List.not_mem_nil,or_false] at hconf
  rw [decide_eq_true_eq]
  rcases hconf with rfl | rfl | rfl | rfl | rfl | rfl <;> dsimp only <;> omega

/-! ## The views together -/

/-- All views agree, but for the size that a request which is served hands to the DMA layer. -/
theorem hostDdr_agrees_iff {alloc : ℕ → Option (ℕ × ℕ)} {dev : AkidaDev} {vma : VmArea}
    (hdev : Present dev) (hddr : dev.hostDdr = akida1500SetupHostDdr alloc)
    (hdma : ∀ size cpuAddr dmaAddr, alloc size = some (cpuAddr,dmaAddr) →
      dmaAddr < 18446744073709551616)
    (hout : OutsideBars dev vma) (s : RegFile) :
    Agrees alloc dev vma s ↔ ¬ ∃ area, allocated alloc = some area ∧ Inside vma area := by
  have harea : ∀ area, allocated alloc = some area → dev.hostDdr = area := by
    intro area h
    rw [hddr,setupHostDdr_allocated,h,Option.getD_some]
  have hnone : allocated alloc = none → dev.hostDdr = ⟨0,0,0⟩ := by
    intro h
    rw [hddr,setupHostDdr_allocated,h,Option.getD_none]
  obtain ⟨hwhole,hmax⟩ := hostDdr_size alloc
  rw [← hddr] at hwhole hmax
  have hmmap := mmap_outsideBars hdev hout hmax hwhole
  constructor
  · rintro h ⟨area,hsome,hinside⟩
    obtain ⟨off,cpuAddr,dmaAddr,size,hcall⟩ := h.served.mpr ⟨area,hsome,hinside⟩
    have hbuffer := (h.buffer _ _ _ _ hcall).1
    obtain ⟨_,hpos,hle,_⟩ := allocated_size hbuffer
    rw [hmmap] at hcall
    split_ifs at hcall
    have hsize : AKIDA_1500_HOST_DDR_BASE = size := (MmapCall.dmaMmapAttrs.inj hcall).2.2.2
    dsimp only at hle
    rw [← hsize] at hle
    exact absurd hle (by decide)
  · intro hno
    have heinval : mmap .akida1500 dev vma = .einval := by
      rw [hmmap,if_neg]
      rintro ⟨hsize,hinside⟩
      cases hcase : allocated alloc with
      | none =>
        rw [hnone hcase] at hsize
        exact hsize rfl
      | some area =>
        rw [harea area hcase] at hinside
        exact hno ⟨area,hcase,hinside⟩
    refine ⟨⟨?_,fun h => absurd h hno⟩,?_,?_,?_,?_⟩
    · rintro ⟨_,_,_,_,hcall⟩
      rw [heinval] at hcall
      contradiction
    · intro _ _ _ _ hcall
      rw [heinval] at hcall
      contradiction
    · intro _ _ _ _ _ hcall
      rw [heinval] at hcall
      contradiction
    · intro area hcase d
      obtain ⟨_,hpos,hle,halloc⟩ := allocated_size hcase
      rw [harea area hcase,outbound_eq hpos hle (hdma _ _ _ halloc) s]
      simp only [Outbound.translate,true_and]
    · intro hcase
      refine ⟨heinval,fun a hlo hhi => ?_⟩
      rw [hnone hcase]
      exact outbound_unset hlo hhi 0 s

/-- A board whose second attempt gets a buffer of 8 MiB. -/
def ddrAlloc (size : ℕ) : Option (ℕ × ℕ) :=
  if size = 0x800000 then some (0xffff0000,0x123400000) else none

def ddrDev : AkidaDev := { twoBars with hostDdr := akida1500SetupHostDdr ddrAlloc }

theorem ddrDev_present : Present ddrDev :=
  ⟨twoBars_probed.fits,fun h => absurd h (by decide),by decide⟩

/-- The first page of the buffer. -/
def firstPage : VmArea := ⟨0,0x1000,0xC0000,by decide,by decide,by decide⟩

/-- It is mapped with the base of the window as the size of the buffer. -/
theorem firstPage_oversized : mmap .akida1500 ddrDev firstPage =
      .dmaMmapAttrs 0 0xffff0000 0x123400000 0xC0000000 ∧
    allocated ddrAlloc = some ⟨0x800000,0xffff0000,0x123400000⟩ ∧
    ∀ s, ¬ Agrees ddrAlloc ddrDev firstPage s := by
  have halloc : allocated ddrAlloc = some ⟨0x800000,0xffff0000,0x123400000⟩ := by decide
  have hddr : ddrDev.hostDdr = ⟨0x800000,0xffff0000,0x123400000⟩ := by
    rw [ddrDev,setupHostDdr_allocated,halloc]
    rfl
  have hmmap : mmap .akida1500 ddrDev firstPage =
      .dmaMmapAttrs 0 0xffff0000 0x123400000 0xC0000000 := by
    simp only [mmap,akida1500Mmap,hddr]
    decide
  refine ⟨hmmap,halloc,fun s h => ?_⟩
  have hbuffer := (h.buffer _ _ _ _ hmmap).1
  rw [halloc] at hbuffer
  exact absurd hbuffer (by decide)

/-- The page behind it is refused, and the device sees the buffer. -/
def pageBehind : VmArea := ⟨0,0x1000,0xC0800,by decide,by decide,by decide⟩

theorem pageBehind_agrees : Agrees ddrAlloc ddrDev pageBehind
    ⟨fun _ => 0#32,fun _ _ _ => 0#32⟩ := by
  refine (hostDdr_agrees_iff ddrDev_present rfl ?_ ?_ _).mpr ?_
  · intro size cpuAddr dmaAddr h
    unfold ddrAlloc at h
    split_ifs at h
    cases h
    decide
  · intro n w hwindow
    unfold window at hwindow
    split at hwindow <;> first | contradiction | (cases hwindow; decide)
  · have halloc : allocated ddrAlloc = some ⟨0x800000,0xffff0000,0x123400000⟩ := by decide
    rw [halloc]
    rintro ⟨area,harea,hinside⟩
    cases harea
    exact absurd hinside (by decide)

end AkidaEdma.Driver.MmapPages
