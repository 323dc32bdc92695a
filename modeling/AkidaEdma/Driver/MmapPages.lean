import AkidaEdma.Driver.Mmap

/-! # The pages that mmap hands out

The mmap calls with what they pass on: the page frame and the size for `io_remap_pfn_range`,
the page offset and the buffer for `dma_mmap_attrs`. A BAR begins on a page and may have any
length, and one that is absent has the length 0.
-/
namespace AkidaEdma.Driver.MmapPages
open DwEdma

/-- `pci_resource_start`, `pci_resource_len` and the `IORESOURCE_MEM` flag of a BAR. -/
structure Resource where
  start : ℕ
  len : ℕ
  mem : Bool
  deriving DecidableEq, Repr

/-- `akida->host_ddr`. -/
structure HostDdr where
  size : ℕ
  cpuAddr : ℕ
  dmaAddr : ℕ
  deriving DecidableEq, Repr

def AKIDA_1500_HOST_DDR_SIZE_MAX : ℕ := 0x1000000
def AKIDA_1500_HOST_DDR_SIZE_MIN : ℕ := 0x100000

/-- The loop of `akida_1500_setup_host_ddr`; `alloc` is what `dmam_alloc_attrs` returns for a
size, the two addresses of a buffer or nothing. -/
def hostDdrLoop (alloc : ℕ → Option (ℕ × ℕ)) (size : ℕ) : HostDdr :=
  if _h : AKIDA_1500_HOST_DDR_SIZE_MIN ≤ size then
    match alloc size with
    | some (cpuAddr,dmaAddr) => ⟨size,cpuAddr,dmaAddr⟩
    | none => hostDdrLoop alloc (size / 2)
  else ⟨0,0,0⟩
termination_by size
decreasing_by
  unfold AKIDA_1500_HOST_DDR_SIZE_MIN at _h
  omega

/-- `akida_1500_setup_host_ddr`. -/
def akida1500SetupHostDdr (alloc : ℕ → Option (ℕ × ℕ)) : HostDdr :=
  hostDdrLoop alloc AKIDA_1500_HOST_DDR_SIZE_MAX

structure AkidaDev where
  bar : ℕ → Resource
  hostDdr : HostDdr

/-- `struct vm_area_struct`: one page or more, and a last page that does not overflow an
`unsigned long`. -/
structure VmArea where
  vmStart : ℕ
  vmEnd : ℕ
  vmPgoff : ℕ
  lt : vmStart < vmEnd
  aligned : (vmEnd - vmStart) % 4096 = 0
  fits : vmPgoff + (vmEnd - vmStart) / 4096 < 18446744073709551616

/-- `vma_pages`. -/
def VmArea.pages (vma : VmArea) : ℕ := (vma.vmEnd - vma.vmStart) / 4096

def VmArea.request (vma : VmArea) : Vma := ⟨vma.vmPgoff,vma.pages,vma.fits⟩

@[simp] theorem request_pgoff (vma : VmArea) : vma.request.pgoff = vma.vmPgoff := rfl
@[simp] theorem request_pages (vma : VmArea) : vma.request.pages = vma.pages := rfl

/-- The call that ends a mmap, or `-EINVAL` without one. -/
inductive MmapCall
  | ioRemapPfnRange (addr pfn size : ℕ)
  | dmaMmapAttrs (vmPgoff cpuAddr dmaAddr size : ℕ)
  | einval
  deriving DecidableEq, Repr

/-- `akida_mmap`; `vmPgoff` is that of the area by now. -/
def akidaMmap (dev : AkidaDev) (bar : ℕ) (vma : VmArea) (vmPgoff : ℕ) : MmapCall :=
  let vmPgoff := u64 (vmPgoff + (dev.bar bar).start / 4096)
  .ioRemapPfnRange vma.vmStart vmPgoff (vma.vmEnd - vma.vmStart)

/-- `akida_1000_mmap`. -/
def akida1000Mmap (dev : AkidaDev) (vma : VmArea) : MmapCall :=
  if !(dev.bar 0).mem then .einval
  else if vma.vmPgoff + vma.pages > pageCount (dev.bar 0).len then .einval
  else akidaMmap dev 0 vma vma.vmPgoff

/-- `akida_1500_mmap`. -/
def akida1500Mmap (dev : AkidaDev) (vma : VmArea) : MmapCall :=
  let start0 := AKIDA_1500_BAR2_OFFSET / 4096
  let start1 := AKIDA_1500_BAR4_OFFSET / 4096
  let start2 := AKIDA_1500_HOST_DDR_BASE / 4096
  let size0 := pageCount (dev.bar 2).len
  let size1 := pageCount (dev.bar 4).len
  let size2 := pageCount dev.hostDdr.size
  if inWindow vma.request start0 size0 then
    if (dev.bar 2).mem then akidaMmap dev 2 vma (vma.vmPgoff - start0) else .einval
  else if inWindow vma.request start1 size1 then
    if (dev.bar 4).mem then akidaMmap dev 4 vma (vma.vmPgoff - start1) else .einval
  else if dev.hostDdr.size ≠ 0 ∧ inWindow vma.request start2 size2 then
    .dmaMmapAttrs (vma.vmPgoff - start2) dev.hostDdr.cpuAddr dev.hostDdr.dmaAddr
      AKIDA_1500_HOST_DDR_BASE
  else .einval

def mmap : Board → AkidaDev → VmArea → MmapCall
  | .akida1000 => akida1000Mmap
  | .akida1500 => akida1500Mmap

/-! ## The windows -/

/-- The pages of a BAR; none if it is absent. -/
def Resource.pages (r : Resource) : ℕ := (r.len + 4095) / 4096

/-- The page at which the window of a BAR begins. -/
def window : Board → ℕ → Option ℕ
  | .akida1000, 0 => some 0
  | .akida1500, 2 => some (AKIDA_1500_BAR2_OFFSET / 4096)
  | .akida1500, 4 => some (AKIDA_1500_BAR4_OFFSET / 4096)
  | _, _ => none

/-- The window of a memory BAR contains the pages that are asked for. -/
structure InBar (board : Board) (dev : AkidaDev) (vma : VmArea) (n w : ℕ) : Prop where
  window : window board n = some w
  mem : (dev.bar n).mem = true
  lo : w ≤ vma.vmPgoff
  hi : vma.vmPgoff + vma.pages ≤ w + (dev.bar n).pages

/-- The window of the host area contains them. -/
structure InHostDdr (board : Board) (dev : AkidaDev) (vma : VmArea) : Prop where
  board : board = .akida1500
  size : dev.hostDdr.size ≠ 0
  lo : AKIDA_1500_HOST_DDR_BASE ≤ 4096 * vma.vmPgoff
  hi : 4096 * (vma.vmPgoff + vma.pages) ≤ AKIDA_1500_HOST_DDR_BASE + dev.hostDdr.size

/-- The BARs and the host area of a device that was probed. -/
structure Probed (board : Board) (dev : AkidaDev) : Prop where
  aligned : ∀ n, (dev.bar n).start % 4096 = 0
  fits : ∀ n, (dev.bar n).start + (dev.bar n).len ≤ 18446744073709551616
  absent : ∀ n, (dev.bar n).len = 0 → (dev.bar n).mem = false
  bar4 : board = .akida1500 → (dev.bar 4).len ≠ 0 ∧
    AKIDA_1500_BAR4_OFFSET + (dev.bar 4).len ≤ AKIDA_1500_HOST_DDR_BASE
  hostDdr : board = .akida1500 → ∃ alloc, dev.hostDdr = akida1500SetupHostDdr alloc

/-- The page frame behind page `i` of the area. -/
def MmapCall.frame : MmapCall → ℕ → Option ℕ
  | .ioRemapPfnRange _ pfn size, i => if 4096 * i < size then some (pfn + i) else none
  | _, _ => none

/-! ## The size of the host area -/

/-- The sizes are tried from the largest on, and the first buffer is taken. -/
theorem hostDdrLoop_cases (alloc : ℕ → Option (ℕ × ℕ)) (k : ℕ) :
    (hostDdrLoop alloc (2^k) = ⟨0,0,0⟩ ∧ ∀ i, 20 ≤ i → i ≤ k → alloc (2^i) = none) ∨
      ∃ j cpuAddr dmaAddr, 20 ≤ j ∧ j ≤ k ∧ alloc (2^j) = some (cpuAddr,dmaAddr) ∧
        (∀ i, j < i → i ≤ k → alloc (2^i) = none) ∧
        hostDdrLoop alloc (2^k) = ⟨2^j,cpuAddr,dmaAddr⟩ := by
  have hmin : ∀ k, AKIDA_1500_HOST_DDR_SIZE_MIN ≤ 2^k ↔ 20 ≤ k := by
    intro k
    have hpow : AKIDA_1500_HOST_DDR_SIZE_MIN = 2^20 := by decide
    rw [hpow]
    exact Nat.pow_le_pow_iff_right (by decide)
  induction k with
  | zero =>
    rw [hostDdrLoop,dif_neg (by decide)]
    exact Or.inl ⟨rfl,fun i hi hik => by omega⟩
  | succ k ih =>
    rw [hostDdrLoop]
    by_cases hk : 20 ≤ k + 1
    · rw [dif_pos ((hmin (k+1)).mpr hk)]
      cases halloc : alloc (2^(k+1)) with
      | some a => exact Or.inr ⟨k+1,a.1,a.2,hk,Nat.le_refl _,halloc,fun i hi hik => by omega,rfl⟩
      | none =>
        have hnone : ∀ {j}, (∀ i, j < i → i ≤ k → alloc (2^i) = none) →
            ∀ i, j < i → i ≤ k + 1 → alloc (2^i) = none := by
          intro j h i hi hik
          rcases Nat.lt_or_eq_of_le hik with hlt | rfl
          · exact h i hi (by omega)
          · exact halloc
        have hhalf : 2^(k+1) / 2 = 2^k := by omega
        dsimp only
        rw [hhalf]
        rcases ih with ⟨hloop,hall⟩ | ⟨j,cpuAddr,dmaAddr,hj,hjk,hsome,hlarger,hloop⟩
        · exact Or.inl ⟨hloop,fun i hi hik =>
            hnone (j := 19) (fun i hi hik => hall i hi hik) i hi hik⟩
        · exact Or.inr ⟨j,cpuAddr,dmaAddr,hj,by omega,hsome,hnone hlarger,hloop⟩
    · rw [dif_neg (fun h => hk ((hmin (k+1)).mp h))]
      exact Or.inl ⟨rfl,fun i hi hik => by omega⟩

/-- The host area is made of whole pages, 16 MiB of them at most. -/
theorem hostDdr_size (alloc : ℕ → Option (ℕ × ℕ)) : (akida1500SetupHostDdr alloc).size % 4096 = 0 ∧
    (akida1500SetupHostDdr alloc).size ≤ AKIDA_1500_HOST_DDR_SIZE_MAX := by
  have hmax : AKIDA_1500_HOST_DDR_SIZE_MAX = 2^24 := by decide
  rw [akida1500SetupHostDdr,hmax]
  rcases hostDdrLoop_cases alloc 24 with ⟨h,_⟩ | ⟨j,_,_,hj,hj',_,_,h⟩
  · rw [h]
    decide
  · rw [h]
    exact ⟨Nat.mod_eq_zero_of_dvd (Nat.pow_dvd_pow 2 (show 12 ≤ j by omega)),
      Nat.pow_le_pow_right (by decide) hj'⟩

/-! ## The three outcomes -/

theorem pages_pos (vma : VmArea) : 1 ≤ vma.pages ∧ vma.vmEnd - vma.vmStart = 4096 * vma.pages := by
  obtain ⟨_,_,_,hlt,haligned,_⟩ := vma
  simp only [VmArea.pages]
  omega

theorem pageCount_eq {len : ℕ} (h : len ≠ 0) (hle : len ≤ 18446744073709551616) :
    pageCount len = (len + 4095) / 4096 := by
  unfold pageCount u64
  omega

theorem inWindow_iff (vma : VmArea) (start size : ℕ) : inWindow vma.request start size = true ↔
    start ≤ vma.vmPgoff ∧ vma.vmPgoff + vma.pages ≤ start + size := by
  rw [inWindow,Bool.and_eq_true,decide_eq_true_eq,decide_eq_true_eq]
  exact Iff.rfl

/-- A BAR that is there has its own pages as the size of its window. -/
theorem Probed.pageCount {board : Board} {dev : AkidaDev} (h : Probed board dev) {n : ℕ}
    (hlen : (dev.bar n).len ≠ 0) : pageCount (dev.bar n).len = (dev.bar n).pages := by
  have hfits := h.fits n
  exact pageCount_eq hlen (by omega)

theorem Probed.len_ne {board : Board} {dev : AkidaDev} (h : Probed board dev) {n : ℕ}
    (hmem : (dev.bar n).mem = true) : (dev.bar n).len ≠ 0 := by
  intro hlen
  rw [h.absent n hlen] at hmem
  contradiction

/-- `vm_pgoff` does not overflow when the first page of the BAR is added. -/
theorem akidaMmap_eq {board : Board} {dev : AkidaDev} (h : Probed board dev) {vma : VmArea} {n p : ℕ}
    (hp : p + vma.pages ≤ (dev.bar n).pages) : akidaMmap dev n vma p =
      .ioRemapPfnRange vma.vmStart ((dev.bar n).start / 4096 + p) (vma.vmEnd - vma.vmStart) := by
  have hfits := h.fits n
  have hpos := (pages_pos vma).1
  have hlt : p + (dev.bar n).start / 4096 < 18446744073709551616 := by
    unfold Resource.pages at hp
    omega
  rw [akidaMmap,u64,Nat.mod_eq_of_lt hlt,Nat.add_comm]

theorem mmap_inBar {board : Board} {dev : AkidaDev} (hdev : Probed board dev) {vma : VmArea}
    {n w : ℕ} (h : InBar board dev vma n w) : mmap board dev vma = .ioRemapPfnRange vma.vmStart
      ((dev.bar n).start / 4096 + (vma.vmPgoff - w)) (vma.vmEnd - vma.vmStart) := by
  obtain ⟨hwindow,hmem,hlo,hhi⟩ := h
  have hcount := hdev.pageCount (hdev.len_ne hmem)
  have hpos := (pages_pos vma).1
  have hpfn : vma.vmPgoff - w + vma.pages ≤ (dev.bar n).pages := by omega
  rw [← akidaMmap_eq hdev hpfn]
  cases board with
  | akida1000 =>
    obtain rfl : n = 0 := by
      unfold window at hwindow
      split at hwindow <;> first | rfl | contradiction
    obtain rfl : w = 0 := (Option.some.inj hwindow).symm
    rw [mmap,akida1000Mmap,hmem,hcount,Bool.not_true,if_neg (by decide),if_neg (by omega),
      Nat.sub_zero]
  | akida1500 =>
    obtain ⟨hlen4,hend4⟩ := hdev.bar4 rfl
    have hcount4 := hdev.pageCount hlen4
    have hcases : (n = 2 ∧ w = AKIDA_1500_BAR2_OFFSET / 4096) ∨
        (n = 4 ∧ w = AKIDA_1500_BAR4_OFFSET / 4096) := by
      unfold window at hwindow
      split at hwindow <;> simp_all
    rw [mmap,akida1500Mmap]
    rcases hcases with ⟨rfl,rfl⟩ | ⟨rfl,rfl⟩
    · have hin : inWindow vma.request (AKIDA_1500_BAR2_OFFSET / 4096)
          (pageCount (dev.bar 2).len) = true := by
        rw [inWindow_iff,hcount]
        exact ⟨hlo,hhi⟩
      simp only [hin,hmem,if_true]
    · have hout : inWindow vma.request (AKIDA_1500_BAR2_OFFSET / 4096)
          (pageCount (dev.bar 2).len) = false := by
        rw [Bool.eq_false_iff,ne_eq,inWindow_iff]
        simp only [AKIDA_1500_BAR2_OFFSET,AKIDA_1500_BAR4_OFFSET,AKIDA_1500_HOST_DDR_BASE,
          Resource.pages] at *
        omega
      have hin : inWindow vma.request (AKIDA_1500_BAR4_OFFSET / 4096)
          (pageCount (dev.bar 4).len) = true := by
        rw [inWindow_iff,hcount]
        exact ⟨hlo,hhi⟩
      simp only [hout,hin,hmem,if_true,Bool.false_eq_true,if_false]

theorem mmap_inHostDdr {board : Board} {dev : AkidaDev} (hdev : Probed board dev) {vma : VmArea}
    (h : InHostDdr board dev vma) : mmap board dev vma =
      .dmaMmapAttrs (vma.vmPgoff - AKIDA_1500_HOST_DDR_BASE / 4096) dev.hostDdr.cpuAddr
        dev.hostDdr.dmaAddr AKIDA_1500_HOST_DDR_BASE := by
  obtain ⟨rfl,hsize,hlo,hhi⟩ := h
  obtain ⟨hlen4,hend4⟩ := hdev.bar4 rfl
  have hcount4 := hdev.pageCount hlen4
  obtain ⟨alloc,halloc⟩ := hdev.hostDdr rfl
  obtain ⟨hwhole,hmax⟩ := hostDdr_size alloc
  rw [← halloc] at hwhole hmax
  have hpos := (pages_pos vma).1
  simp only [AKIDA_1500_BAR4_OFFSET,AKIDA_1500_HOST_DDR_BASE,AKIDA_1500_HOST_DDR_SIZE_MAX,
    Resource.pages] at hlo hhi hend4 hmax hcount4
  have hcount := pageCount_eq hsize (by omega)
  have hout2 : inWindow vma.request (AKIDA_1500_BAR2_OFFSET / 4096)
      (pageCount (dev.bar 2).len) = false := by
    rw [Bool.eq_false_iff,ne_eq,inWindow_iff,AKIDA_1500_BAR2_OFFSET]
    omega
  have hout4 : inWindow vma.request (AKIDA_1500_BAR4_OFFSET / 4096)
      (pageCount (dev.bar 4).len) = false := by
    rw [Bool.eq_false_iff,ne_eq,inWindow_iff,AKIDA_1500_BAR4_OFFSET]
    omega
  have hin : inWindow vma.request (AKIDA_1500_HOST_DDR_BASE / 4096)
      (pageCount dev.hostDdr.size) = true := by
    rw [inWindow_iff,AKIDA_1500_HOST_DDR_BASE]
    omega
  rw [mmap,akida1500Mmap]
  simp only [hout2,hout4,hin,Bool.false_eq_true,if_false,ne_eq,hsize,not_false_eq_true,and_self,
    if_true]

theorem mmap_outside {board : Board} {dev : AkidaDev} (hdev : Probed board dev) {vma : VmArea}
    (hbar : ∀ n w, ¬ InBar board dev vma n w) (hhost : ¬ InHostDdr board dev vma) :
    mmap board dev vma = .einval := by
  have hno : ∀ n w, window board n = some w → (dev.bar n).mem = true →
      inWindow vma.request w (pageCount (dev.bar n).len) = false := by
    intro n w hwindow hmem
    rw [Bool.eq_false_iff,ne_eq,inWindow_iff,hdev.pageCount (hdev.len_ne hmem)]
    exact fun h => hbar n w ⟨hwindow,hmem,h.1,h.2⟩
  cases board with
  | akida1000 =>
    rw [mmap,akida1000Mmap]
    cases hmem : (dev.bar 0).mem with
    | false => rfl
    | true =>
      have hout := hno 0 0 rfl hmem
      rw [Bool.eq_false_iff,ne_eq,inWindow_iff] at hout
      rw [Bool.not_true,if_neg (by decide),if_pos (by omega)]
  | akida1500 =>
    have h2 := hno 2 _ rfl
    have h4 := hno 4 _ rfl
    have hddr : ¬ (dev.hostDdr.size ≠ 0 ∧ inWindow vma.request (AKIDA_1500_HOST_DDR_BASE / 4096)
        (pageCount dev.hostDdr.size) = true) := by
      rintro ⟨hsize,hin⟩
      obtain ⟨alloc,halloc⟩ := hdev.hostDdr rfl
      obtain ⟨hwhole,hmax⟩ := hostDdr_size alloc
      rw [← halloc] at hwhole hmax
      simp only [AKIDA_1500_HOST_DDR_SIZE_MAX] at hmax
      rw [inWindow_iff,pageCount_eq hsize (by omega)] at hin
      refine hhost ⟨rfl,hsize,?_,?_⟩ <;> simp only [AKIDA_1500_HOST_DDR_BASE] at hin ⊢ <;> omega
    simp only [mmap,akida1500Mmap,if_neg hddr]
    split
    · rename_i hin
      rw [if_neg (fun hmem => absurd hin (by rw [h2 hmem]; decide))]
    · split
      · rename_i hin
        rw [if_neg (fun hmem => absurd hin (by rw [h4 hmem]; decide))]
      · rfl

/-- What `akida_mmap` maps is the memory BAR whose window contains the pages, page by page; a
request is refused exactly when no window contains it. -/
theorem mmap_exact {board : Board} {dev : AkidaDev} (hdev : Probed board dev) (vma : VmArea) :
    (∀ addr pfn size, mmap board dev vma = .ioRemapPfnRange addr pfn size →
      addr = vma.vmStart ∧ size = vma.vmEnd - vma.vmStart ∧
      ∃ n w, InBar board dev vma n w ∧ ∀ i < vma.pages,
        (mmap board dev vma).frame i =
            some ((dev.bar n).start / 4096 + (vma.vmPgoff - w + i)) ∧
          vma.vmPgoff - w + i < (dev.bar n).pages) ∧
      (mmap board dev vma = .einval ↔
        (∀ n w, ¬ InBar board dev vma n w) ∧ ¬ InHostDdr board dev vma) := by
  have hsize := (pages_pos vma).2
  by_cases hbar : ∃ n w, InBar board dev vma n w
  · obtain ⟨n,w,h⟩ := hbar
    rw [mmap_inBar hdev h]
    refine ⟨fun addr pfn size hcall => ?_,fun hcall => by contradiction,
      fun hno => absurd h (hno.1 n w)⟩
    cases hcall
    refine ⟨rfl,rfl,n,w,h,fun i hi => ?_⟩
    have hlo := h.lo
    have hhi := h.hi
    rw [MmapCall.frame,if_pos (by omega),Nat.add_assoc]
    exact ⟨rfl,by omega⟩
  · have hnone : ∀ n w, ¬ InBar board dev vma n w := fun n w h => hbar ⟨n,w,h⟩
    by_cases hhost : InHostDdr board dev vma
    · rw [mmap_inHostDdr hdev hhost]
      exact ⟨fun _ _ _ hcall => by contradiction,fun hcall => by contradiction,
        fun hno => absurd hhost hno.2⟩
    · rw [mmap_outside hdev hnone hhost]
      exact ⟨fun _ _ _ hcall => by contradiction,fun _ => ⟨hnone,hhost⟩,fun _ => rfl⟩

/-- A board with BARs of 4 MiB and no host area, and the second and third page of BAR 4. -/
def twoBars : AkidaDev where
  bar
    | 2 => ⟨0xC1000000,0x400000,true⟩
    | 4 => ⟨0xC1400000,0x400000,true⟩
    | _ => ⟨0,0,false⟩
  hostDdr := akida1500SetupHostDdr fun _ => none

def twoPages : VmArea := ⟨0x10000,0x12000,0x20001,by decide,by decide,by decide⟩

theorem twoBars_probed : Probed .akida1500 twoBars where
  aligned n := by
    simp only [twoBars]
    split <;> rfl
  fits n := by
    simp only [twoBars]
    split <;> decide
  absent n hlen := by
    simp only [twoBars] at hlen ⊢
    split at hlen <;> first | contradiction | rfl
  bar4 _ := by decide
  hostDdr _ := ⟨_,rfl⟩

theorem twoPages_mapped : ∃ n w, InBar .akida1500 twoBars twoPages n w ∧
    (mmap .akida1500 twoBars twoPages).frame 1 =
      some ((twoBars.bar n).start / 4096 + (twoPages.vmPgoff - w + 1)) := by
  obtain ⟨_,_,n,w,hin,hpages⟩ := (mmap_exact twoBars_probed twoPages).1 0x10000 0xC1401 0x2000 rfl
  exact ⟨n,w,hin,(hpages 1 (by decide)).1⟩

/-! ## The model of the windows -/

/-- A device of the other model, and the addresses of its host area. -/
def ofMmapDev (dev : MmapDev) (cpuAddr dmaAddr : ℕ) : AkidaDev where
  bar n := ⟨resourceStart dev n,resourceLen dev n,resourceMem dev n⟩
  hostDdr := ⟨dev.hostDdrSize,cpuAddr,dmaAddr⟩

/-- The calls decide as they do there. -/
theorem mmap_refines (board : Board) (dev : MmapDev) (cpuAddr dmaAddr : ℕ) (vma : VmArea) :
    mmap board (ofMmapDev dev cpuAddr dmaAddr) vma =
      match board.mmap dev vma.request with
      | .bar n pgoff => akidaMmap (ofMmapDev dev cpuAddr dmaAddr) n vma pgoff
      | .hostDdr pgoff => .dmaMmapAttrs pgoff cpuAddr dmaAddr AKIDA_1500_HOST_DDR_BASE
      | .einval => .einval := by
  cases board with
  | akida1000 =>
    simp only [mmap,akida1000Mmap,Board.mmap,Driver.akida1000Mmap]
    by_cases hmem : resourceMem dev 0 = true
    · by_cases hfit : vma.vmPgoff + vma.pages > pageCount (resourceLen dev 0) <;>
        simp [ofMmapDev,hmem,hfit]
    · simp [ofMmapDev,hmem]
  | akida1500 =>
    simp only [mmap,akida1500Mmap,Board.mmap,Driver.akida1500Mmap]
    by_cases h2 : inWindow vma.request (AKIDA_1500_BAR2_OFFSET / 4096)
        (pageCount (resourceLen dev 2)) = true
    · by_cases hmem : resourceMem dev 2 = true <;> simp [ofMmapDev,h2,hmem]
    · by_cases h4 : inWindow vma.request (AKIDA_1500_BAR4_OFFSET / 4096)
          (pageCount (resourceLen dev 4)) = true
      · by_cases hmem : resourceMem dev 4 = true <;> simp [ofMmapDev,h2,h4,hmem]
      · by_cases hddr : dev.hostDdrSize ≠ 0 ∧ inWindow vma.request
            (AKIDA_1500_HOST_DDR_BASE / 4096) (pageCount dev.hostDdrSize) = true
        · simp [ofMmapDev,h2,h4,hddr]
        · simp only [ofMmapDev,h2,h4,if_neg hddr,Bool.false_eq_true,if_false]
          exact if_neg hddr

end AkidaEdma.Driver.MmapPages
