import AkidaEdma.Driver.Iatu

/-! # The mmap calls

The windows that `akida_1000_mmap` and `akida_1500_mmap` accept, and the device addresses that
the accepted pages give access to.
-/
namespace AkidaEdma.Driver
open DwEdma

/-- A BAR, which lies at a multiple of its size as every BAR does. -/
structure Bar where
  start : ℕ
  len : ℕ
  isMem : Bool
  size_pow : ∃ k, len = 2^k
  aligned : len ∣ start

/-- The device as the calls see it; `hostDdrSize` is 0 where there is no host area. -/
structure MmapDev where
  ram : DmaRam
  bar : ℕ → Option Bar
  hostDdrSize : ℕ

/-- A request; the kernel refuses one whose last page overflows an `unsigned long`. -/
structure Vma where
  pgoff : ℕ
  pages : ℕ
  fits : pgoff + pages < 18446744073709551616

def resourceLen (dev : MmapDev) (bar : ℕ) : ℕ :=
  match dev.bar bar with
  | some b => b.len
  | none => 0

def resourceStart (dev : MmapDev) (bar : ℕ) : ℕ :=
  match dev.bar bar with
  | some b => b.start
  | none => 0

/-- The test of `IORESOURCE_MEM`. -/
def resourceMem (dev : MmapDev) (bar : ℕ) : Bool :=
  match dev.bar bar with
  | some b => b.isMem
  | none => false

/-- `((len - 1) >> PAGE_SHIFT) + 1`, of `unsigned long`. -/
def pageCount (len : ℕ) : ℕ := u64 (len + 18446744073709551615) / 4096 + 1

/-- The outcome of a call: pages of a BAR from `vm_pgoff`, pages of the host area, or
`-EINVAL`. -/
inductive MmapResult
  | bar (n pgoff : ℕ)
  | hostDdr (pgoff : ℕ)
  | einval
  deriving DecidableEq, Repr

def akida1000Mmap (dev : MmapDev) (vma : Vma) : MmapResult :=
  if !resourceMem dev 0 then .einval
  else if vma.pgoff + vma.pages > pageCount (resourceLen dev 0) then .einval
  else .bar 0 vma.pgoff

/-- The test of a window. -/
def inWindow (vma : Vma) (start size : ℕ) : Bool :=
  decide (start ≤ vma.pgoff) && decide (vma.pgoff + vma.pages ≤ start + size)

def akida1500Mmap (dev : MmapDev) (vma : Vma) : MmapResult :=
  let start0 := AKIDA_1500_BAR2_OFFSET / 4096
  let start1 := AKIDA_1500_BAR4_OFFSET / 4096
  let start2 := AKIDA_1500_HOST_DDR_BASE / 4096
  let size0 := pageCount (resourceLen dev 2)
  let size1 := pageCount (resourceLen dev 4)
  let size2 := pageCount dev.hostDdrSize
  if inWindow vma start0 size0 then
    if resourceMem dev 2 then .bar 2 (vma.pgoff - start0) else .einval
  else if inWindow vma start1 size1 then
    if resourceMem dev 4 then .bar 4 (vma.pgoff - start1) else .einval
  else if dev.hostDdrSize ≠ 0 ∧ inWindow vma start2 size2 then .hostDdr (vma.pgoff - start2)
  else .einval

def Board.mmap : Board → MmapDev → Vma → MmapResult
  | .akida1000 => akida1000Mmap
  | .akida1500 => akida1500Mmap

/-- Device address `a` is reached through a page that `akida_mmap` maps. -/
def Touches (board : Board) (dev : MmapDev) (vma : Vma) (a : ℕ) : Prop :=
  ∃ n pgoff p, board.mmap dev vma = .bar n pgoff ∧
    4096 * (resourceStart dev n / 4096 + pgoff) ≤ p ∧
    p < 4096 * (resourceStart dev n / 4096 + pgoff + vma.pages) ∧
    resourceStart dev n ≤ p ∧ p < resourceStart dev n + resourceLen dev n ∧
    board.translate dev.ram n (p - resourceStart dev n) = some a

/-- The request is served from the window of BAR 4. -/
def bar4Window (dev : MmapDev) (vma : Vma) : Prop :=
  inWindow vma (AKIDA_1500_BAR2_OFFSET / 4096) (pageCount (resourceLen dev 2)) = false ∧
  inWindow vma (AKIDA_1500_BAR4_OFFSET / 4096) (pageCount (resourceLen dev 4)) = true ∧
  resourceMem dev 4 = true

/-- The pages that are asked for, as far as BAR 4 goes, meet the reserved area. -/
def meetsRam (dev : MmapDev) (vma : Vma) : Prop :=
  max (4096 * vma.pgoff) dev.ram.start <
    min (min (4096 * (vma.pgoff + vma.pages)) (AKIDA_1500_BAR4_OFFSET + resourceLen dev 4))
      dev.ram.stop

/-- A BAR begins on a page, or lies in one. -/
theorem Bar.in_pages (b : Bar) : b.start % 4096 = 0 ∨ b.start % 4096 + b.len ≤ 4096 := by
  obtain ⟨k,hk⟩ := b.size_pow
  obtain ⟨q,hq⟩ := b.aligned
  by_cases hsize : 12 ≤ k
  · left
    have hdvd : 4096 ∣ b.len := by
      rw [hk]
      exact Nat.pow_dvd_pow 2 hsize
    exact Nat.mod_eq_zero_of_dvd (Nat.dvd_trans hdvd b.aligned)
  · right
    obtain ⟨r,hr⟩ : b.len ∣ 4096 := by
      rw [hk]
      exact Nat.pow_dvd_pow 2 (show k ≤ 12 by omega)
    have hpos : 0 < r := Nat.pos_of_ne_zero (by rintro rfl; omega)
    have hmod : b.start % 4096 = b.len * (q % r) := by rw [hq,hr,Nat.mul_mod_mul_left]
    calc b.start % 4096 + b.len = b.len * (q % r + 1) := by rw [hmod,Nat.mul_succ]
      _ ≤ b.len * r := Nat.mul_le_mul_left _ (Nat.mod_lt q hpos)
      _ = 4096 := hr.symm

/-- The pages of a BAR that `akida_1500_mmap` maps. -/
theorem akida1500Mmap_bar {dev : MmapDev} {vma : Vma} {n pgoff : ℕ}
    (h : akida1500Mmap dev vma = .bar n pgoff) : n = 2 ∨
    n = 4 ∧ bar4Window dev vma ∧ pgoff = vma.pgoff - AKIDA_1500_BAR4_OFFSET / 4096 := by
  unfold akida1500Mmap at h
  dsimp only at h
  split at h
  · split at h
    · cases h
      exact Or.inl rfl
    · contradiction
  · rename_i hbar2
    split at h
    · rename_i hbar4
      split at h
      · rename_i hmem
        cases h
        exact Or.inr ⟨rfl,⟨Bool.eq_false_iff.mpr hbar2,hbar4,hmem⟩,rfl⟩
      · contradiction
    · split at h <;> contradiction

theorem akida1500Mmap_bar4 {dev : MmapDev} {vma : Vma} (h : bar4Window dev vma) :
    akida1500Mmap dev vma = .bar 4 (vma.pgoff - AKIDA_1500_BAR4_OFFSET / 4096) := by
  obtain ⟨hbar2,hbar4,hmem⟩ := h
  simp [akida1500Mmap,hbar2,hbar4,hmem]

/-- Through the window of BAR 4 an offset in the file is a device address. -/
theorem reaches_bar4 {dev : MmapDev} {vma : Vma} (h : bar4Window dev vma) (a : ℕ) :
    Touches .akida1500 dev vma a ↔ 4096 * vma.pgoff ≤ a ∧
      a < 4096 * (vma.pgoff + vma.pages) ∧ a < AKIDA_1500_BAR4_OFFSET + resourceLen dev 4 := by
  have hmap := akida1500Mmap_bar4 h
  obtain ⟨_,hwindow,hmem⟩ := h
  obtain ⟨b,hb⟩ : ∃ b, dev.bar 4 = some b := by
    cases hb : dev.bar 4 with
    | none =>
      rw [resourceMem,hb] at hmem
      contradiction
    | some b => exact ⟨b,rfl⟩
  have hstart : resourceStart dev 4 = b.start := by rw [resourceStart,hb]
  have hlen : resourceLen dev 4 = b.len := by rw [resourceLen,hb]
  have hpos : 1 ≤ b.len := by
    obtain ⟨k,hk⟩ := b.size_pow
    rw [hk]
    exact Nat.one_le_two_pow
  have hpages := b.in_pages
  have htarget : ∀ off, Board.translate dev.ram .akida1500 4 off =
      some (AKIDA_1500_BAR4_OFFSET + off) := fun off => translate_eq dev.ram _ (by decide) off
  simp only [inWindow,Bool.and_eq_true,decide_eq_true_eq,hlen,pageCount,u64] at hwindow
  rw [hlen]
  simp only [AKIDA_1500_BAR4_OFFSET] at hwindow hmap htarget ⊢
  constructor
  · rintro ⟨n,pgoff,p,hmmap,hlo,hhi,hbar,hend,ha⟩
    have hpair := hmap.symm.trans hmmap
    cases hpair
    rw [hstart] at hlo hhi hbar hend ha
    rw [htarget] at ha
    have haddr := Option.some.inj ha
    rw [hlen] at hend
    omega
  · rintro ⟨hlo,hhi,hend⟩
    refine ⟨4,_,b.start + (a - 0x20000000),hmap,?_⟩
    rw [hstart,hlen,htarget]
    refine ⟨by omega,by omega,by omega,by omega,?_⟩
    congr 1
    omega

/-- No other window leads near the reserved area. -/
theorem reaches_clear {board : Board} {dev : MmapDev} {vma : Vma}
    (h : ¬ (board = .akida1500 ∧ bar4Window dev vma)) {a : ℕ} (ha : Touches board dev vma a) :
    dev.ram.stop ≤ a := by
  obtain ⟨n,pgoff,p,hmmap,_,_,_,_,htranslate⟩ := ha
  have hfits := dev.ram.fits
  have hhigh : ∃ off, a = 0xFCC00000 + off := by
    cases board with
    | akida1000 =>
      have hn : n = 0 := by
        have hbar : akida1000Mmap dev vma = .bar n pgoff := hmmap
        unfold akida1000Mmap at hbar
        split at hbar <;> try contradiction
        split at hbar <;> try contradiction
        cases hbar
        rfl
      subst hn
      rw [translate_eq dev.ram _ (by decide)] at htranslate
      exact ⟨_,(Option.some.inj htranslate).symm⟩
    | akida1500 =>
      rcases akida1500Mmap_bar hmmap with rfl | ⟨_,hwindow,_⟩
      · rw [translate_eq dev.ram _ (by decide)] at htranslate
        exact ⟨_,(Option.some.inj htranslate).symm⟩
      · exact absurd ⟨rfl,hwindow⟩ h
  obtain ⟨off,rfl⟩ := hhigh
  rw [DmaRam.stop]
  omega

/-- A mapping keeps clear of the reserved area, unless it goes through the window of BAR 4
and its pages meet the area. -/
theorem mmap_protected_iff (board : Board) (dev : MmapDev) (vma : Vma) :
    (∀ a, Touches board dev vma a → a ∉ Set.Ico dev.ram.start dev.ram.stop) ↔
      ¬ (board = .akida1500 ∧ bar4Window dev vma ∧ meetsRam dev vma) := by
  constructor
  · rintro h ⟨rfl,hwindow,hmeets⟩
    -- the first address that lies in both
    have hreach : Touches .akida1500 dev vma (max (4096 * vma.pgoff) dev.ram.start) := by
      rw [reaches_bar4 hwindow]
      unfold meetsRam at hmeets
      omega
    apply h _ hreach
    rw [Set.mem_Ico]
    unfold meetsRam at hmeets
    omega
  · intro h a ha hram
    rw [Set.mem_Ico] at hram
    by_cases hwindow : board = .akida1500 ∧ bar4Window dev vma
    · obtain ⟨rfl,hwindow⟩ := hwindow
      rw [reaches_bar4 hwindow] at ha
      apply h
      refine ⟨rfl,hwindow,?_⟩
      unfold meetsRam
      omega
    · have hclear := reaches_clear hwindow ha
      omega

/-- A second board with the default layout, BAR 4 of 4 MiB and no host area. -/
def plainDev : MmapDev where
  ram := defaultRam
  bar
    | 2 => some ⟨0xC1000000,0x400000,true,⟨22,rfl⟩,by decide⟩
    | 4 => some ⟨0xC1400000,0x400000,true,⟨22,rfl⟩,by decide⟩
    | _ => none
  hostDdrSize := 0

/-- The first page of the window of BAR 4 begins with the linked lists. -/
theorem firstPage_reaches_lists : ∃ a,
    Touches .akida1500 plainDev ⟨0x20000,1,by decide⟩ a ∧
      a ∈ Set.Ico plainDev.ram.start plainDev.ram.stop := by
  refine ⟨0x20000000,?_,by decide⟩
  exact (reaches_bar4 ⟨by decide,by decide,by decide⟩ _).mpr ⟨by decide,by decide,by decide⟩

end AkidaEdma.Driver
