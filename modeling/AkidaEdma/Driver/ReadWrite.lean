import AkidaEdma.Engine.Descriptor
import Mathlib.Data.Int.Notation
import Mathlib.Order.CompletePartialOrder
import Mathlib.Order.Interval.Set.Disjoint

/-! # The read and write calls

The check of a request and the loop over its chunks. `*ppos` is kept as its 64-bit
pattern, which is also the address that the engine gets.
-/
namespace AkidaEdma.Driver
open DwEdma

def EINVAL : ℤ := 22
def ENOMEM : ℤ := 12
def EFAULT : ℤ := 14
def ETIMEDOUT : ℤ := 110
def ERESTARTSYS : ℤ := 512

def AKIDA_DMA_XFER_MAX_SIZE : ℕ := 1024

/-- `AKIDA_DMA_RAM_PHY_ADDR`, `_OFFSET` and `_SIZE`, whose sum is an `int`. -/
structure DmaRam where
  addr : ℕ
  offset : ℕ
  size : ℕ
  fits : addr + offset + size < 2147483648

def DmaRam.start (ram : DmaRam) : ℕ := ram.addr + ram.offset
def DmaRam.stop (ram : DmaRam) : ℕ := ram.addr + ram.offset + ram.size

/-- `akida_is_allowed`. -/
def isAllowed (ram : DmaRam) (addr size : ℕ) : Bool :=
  decide (u64 (addr + size) < ram.start) || decide (ram.stop ≤ addr)

/-- `akida_read` receives from the device, `akida_write` transmits to it. -/
inductive Way | rx | tx
  deriving DecidableEq, Repr

/-- The variables of the loop; `usrBuf` counts from the start of the user buffer. -/
structure Loop where
  left : ℕ
  usrBuf : ℕ
  pos : ℕ
  deriving DecidableEq, Repr

def Loop.start (pos sz : ℕ) : Loop := ⟨sz,0,pos⟩

/-- The size of the next chunk. -/
def Loop.size (l : Loop) : ℕ :=
  if l.left > AKIDA_DMA_XFER_MAX_SIZE then AKIDA_DMA_XFER_MAX_SIZE else l.left

def Loop.advance (l : Loop) : Loop := ⟨l.left - l.size,l.usrBuf + l.size,u64 (l.pos + l.size)⟩

/-- An error code. -/
structure Errno where
  val : ℤ
  neg : val < 0

/-- How a chunk ends: transferred and copied, refused by `akida_dma_transfer`, or refused by
the copy from or to the user. -/
inductive Outcome
  | done
  | dmaError (e : Errno)
  | fault

def Outcome.error : Outcome → Option ℤ
  | .done => none
  | .dmaError e => some e.val
  | .fault => some (-EFAULT)

/-- The arguments of the call of `akida_dma_transfer` in an iteration; a write copies from
the user first. -/
def Loop.transfer (way : Way) (l : Loop) : Outcome → Option (ℕ × ℕ)
  | .fault => if way = .tx then none else some (l.pos,l.size)
  | _ => some (l.pos,l.size)

/-- The transfers of the loop, with the outcomes of its chunks given. -/
def Loop.transfers (way : Way) : Loop → List Outcome → List (ℕ × ℕ)
  | _, [] => []
  | l, o :: os =>
    if l.left = 0 then []
    else (l.transfer way o).toList ++
      match o.error with
      | none => l.advance.transfers way os
      | some _ => []

/-- The transfers of a call. -/
def transfers (ram : DmaRam) (way : Way) (pos sz : ℕ) (os : List Outcome) : List (ℕ × ℕ) :=
  if isAllowed ram pos sz then (Loop.start pos sz).transfers way os else []

/-- The loop of a request for `[pos, pos + sz)` with `usrBuf` bytes behind it. -/
structure Loop.At (pos sz : ℕ) (l : Loop) : Prop where
  wrap : pos + sz < 18446744073709551616
  left_eq : l.usrBuf + l.left = sz
  pos_eq : l.pos = pos + l.usrBuf

theorem loop_start_at {pos sz : ℕ} (h : pos + sz < 18446744073709551616) :
    (Loop.start pos sz).At pos sz := ⟨h,Nat.zero_add sz,rfl⟩

theorem loop_size_le (l : Loop) : l.size ≤ AKIDA_DMA_XFER_MAX_SIZE ∧ l.size ≤ l.left := by
  unfold Loop.size
  split <;> omega

theorem loop_size_pos {l : Loop} (h : l.left ≠ 0) : 1 ≤ l.size := by
  unfold Loop.size AKIDA_DMA_XFER_MAX_SIZE
  split <;> omega

theorem Loop.At.advance {pos sz : ℕ} {l : Loop} (h : l.At pos sz) : l.advance.At pos sz := by
  obtain ⟨hw,hl,hp⟩ := h
  obtain ⟨_,hs⟩ := loop_size_le l
  refine ⟨hw,?_,?_⟩
  · simp only [Loop.advance]
    omega
  · simp only [Loop.advance,hp,u64]
    omega

/-- Every transfer of the loop is a chunk of what is left of the request. -/
theorem loop_transfers_inside {way : Way} {pos sz a len : ℕ} {os : List Outcome} :
    ∀ {l : Loop}, l.At pos sz → (a,len) ∈ l.transfers way os →
      1 ≤ len ∧ len ≤ AKIDA_DMA_XFER_MAX_SIZE ∧ pos ≤ a ∧ a + len ≤ pos + sz := by
  induction os with
  | nil => intro l _ hmem; exact absurd hmem List.not_mem_nil
  | cons o os ih =>
    intro l h hmem
    unfold Loop.transfers at hmem
    split at hmem
    · exact absurd hmem List.not_mem_nil
    · rename_i hleft
      rcases List.mem_append.mp hmem with hmem | hmem
      · have hchunk : (a,len) = (l.pos,l.size) := by
          have hsome := Option.mem_toList.mp hmem
          cases o <;> simp only [Loop.transfer] at hsome
          · exact (Option.some.inj hsome).symm
          · exact (Option.some.inj hsome).symm
          · split at hsome
            · contradiction
            · exact (Option.some.inj hsome).symm
        obtain ⟨rfl,rfl⟩ := Prod.mk.inj hchunk
        obtain ⟨hw,hl,hp⟩ := h
        obtain ⟨hmax,hs⟩ := loop_size_le l
        exact ⟨loop_size_pos hleft,hmax,by omega,by omega⟩
      · split at hmem
        · exact ih h.advance hmem
        · exact absurd hmem List.not_mem_nil

/-- Whatever the outcomes of its chunks, every transfer of a call lies in the request and
keeps clear of the reserved area. -/
theorem transfers_clear_of_ram {ram : DmaRam} {way : Way} {pos sz a len : ℕ} {os : List Outcome}
    (hvfs : pos + sz < 18446744073709551616) (h : (a,len) ∈ transfers ram way pos sz os) :
    1 ≤ len ∧ len ≤ AKIDA_DMA_XFER_MAX_SIZE ∧
    Set.Ico a (a + len) ⊆ Set.Ico pos (pos + sz) ∧
    Disjoint (Set.Ico a (a + len)) (Set.Ico ram.start ram.stop) := by
  unfold transfers at h
  split at h
  · rename_i hallowed
    obtain ⟨hpos,hmax,hlo,hhi⟩ := loop_transfers_inside (loop_start_at hvfs) h
    refine ⟨hpos,hmax,Set.Ico_subset_Ico hlo hhi,?_⟩
    have hor : u64 (pos + sz) < ram.start ∨ ram.stop ≤ pos := by
      simpa [isAllowed] using hallowed
    have hsum : u64 (pos + sz) = pos + sz := Nat.mod_eq_of_lt hvfs
    rw [Set.disjoint_left]
    intro x hx hram
    rw [Set.mem_Ico] at hx hram
    omega
  · exact absurd h List.not_mem_nil

/-- The area that the driver is built with by default. -/
def defaultRam : DmaRam := ⟨0x20000000,0,0x100,by decide⟩

/-- The second chunk of a read that begins where the area ends. -/
theorem second_chunk_clear : Disjoint (Set.Ico 536872192 (536872192 + 976))
    (Set.Ico defaultRam.start defaultRam.stop) := by
  have h : (536872192,976) ∈ transfers defaultRam .rx 536871168 2000 [.done,.done] := by decide
  exact (transfers_clear_of_ram (by decide) h).2.2.2

end AkidaEdma.Driver
