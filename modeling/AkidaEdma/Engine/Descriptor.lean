import Mathlib.Data.Nat.Notation

/-! # Bursts, chunks and descriptors

The data of a transfer request as the engine keeps it. Machine integers are
naturals, reduced where the source stores them in a narrower type. The list-head
objects of the source's burst and chunk lists carry no data and are left out: a
list here holds the elements that follow the head.
-/
namespace AkidaEdma.DwEdma

def u32 (n : ℕ) : ℕ := n % 4294967296
def u64 (n : ℕ) : ℕ := n % 18446744073709551616

theorem u32_of_lt {n : ℕ} (h : n < 4294967296) : u32 n = n := Nat.mod_eq_of_lt h

/-- `enum dw_edma_dir`. -/
inductive Dir | write | read
  deriving DecidableEq, Repr

/-- `enum dma_transfer_direction`. -/
inductive XferDirection | memToMem | memToDev | devToMem | devToDev
  deriving DecidableEq, Repr

/-- `struct dw_edma_burst`. -/
structure Burst where
  sar : ℕ
  dar : ℕ
  sz : ℕ
  deriving DecidableEq, Repr

/-- `struct dw_edma_region`. -/
structure Region where
  paddr : ℕ
  vaddr : ℕ
  sz : ℕ
  deriving DecidableEq, Repr

/-- `struct dw_edma_chunk`; the size of `llRegion` counts the bytes of its bursts. -/
structure Chunk where
  burst : List Burst
  burstsAlloc : ℕ
  cb : Bool
  llRegion : Region
  deriving DecidableEq, Repr

/-- `struct dw_edma_desc`; `vd` is the identity of its `virt_dma_desc`, and `chunk`
holds the chunks that were not handed to the hardware yet. -/
structure Desc where
  vd : ℕ
  chunk : List Chunk
  chunksAlloc : ℕ
  allocSz : ℕ
  xferSz : ℕ
  deriving DecidableEq, Repr

/-- The part of `struct dw_edma_chip` that the channel code reads. -/
structure Chip where
  isLocal : Bool
  llRegionWr : ℕ → Region
  llRegionRd : ℕ → Region
  pciAddress : Option (ℕ → ℕ)

/-- A descriptor as it is returned by a prep call: nothing consumed, and the
counter agrees with the list. -/
structure Desc.Fresh (d : Desc) : Prop where
  chunk_ne : d.chunk ≠ []
  alloc_eq : d.chunksAlloc = d.chunk.length
  length_lt : d.chunk.length < 4294967296
  xfer_eq : d.xferSz = 0

/-- The state of a descriptor after its first chunk was started. -/
def Desc.consume (d : Desc) (child : Chunk) (chunks : List Chunk) : Desc :=
  { d with
    chunk := chunks
    xferSz := u32 (d.xferSz + child.llRegion.sz)
    chunksAlloc := u32 (d.chunksAlloc + 4294967295) }

@[simp] theorem consume_vd (d : Desc) (c : Chunk) (cs : List Chunk) :
    (d.consume c cs).vd = d.vd := rfl
@[simp] theorem consume_chunk (d : Desc) (c : Chunk) (cs : List Chunk) :
    (d.consume c cs).chunk = cs := rfl

/-- The counter `chunks_alloc` stands for the number of chunks left. -/
def Desc.Counted (d : Desc) : Prop := d.chunksAlloc = d.chunk.length ∧ d.chunk.length < 4294967296

theorem Desc.Fresh.counted {d : Desc} (h : d.Fresh) : d.Counted := ⟨h.alloc_eq,h.length_lt⟩

theorem Desc.Counted.consume {d : Desc} {c : Chunk} {cs : List Chunk} (h : d.Counted)
    (hc : d.chunk = c :: cs) : (d.consume c cs).Counted := by
  obtain ⟨ha,hl⟩ := h
  rw [hc,List.length_cons] at ha hl
  constructor
  · dsimp only [Desc.consume,u32]
    omega
  · dsimp only [Desc.consume]
    omega

theorem Desc.Counted.alloc_eq_zero {d : Desc} (h : d.Counted) :
    d.chunksAlloc = 0 ↔ d.chunk = [] := by
  rw [h.1,List.length_eq_zero_iff]

end AkidaEdma.DwEdma
