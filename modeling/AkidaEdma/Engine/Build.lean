import AkidaEdma.Engine.Transfer
import AkidaEdma.Library.Packing
import Mathlib.Algebra.BigOperators.Group.List.Basic
import Mathlib.Algebra.GroupWithZero.Nat

/-! # The chunks of a descriptor

What `dw_edma_device_transfer` builds, whatever the type of the request: its bursts in order,
packed into chunks of `ll_max`, with counters and sizes that agree with the lists.
-/
namespace AkidaEdma.DwEdma
open Packing

/-- The bursts of a list of chunks, in order. -/
def bursts (cs : List Chunk) : List Burst := (cs.map Chunk.burst).flatten

def totalSz (cs : List Chunk) : ℕ := (cs.map fun c => c.llRegion.sz).sum

/-- The region of the chip that a channel puts its linked lists in. -/
def Chan.region (chip : Chip) (chan : Chan) : Region :=
  if chan.dir = .write then chip.llRegionWr chan.id else chip.llRegionRd chan.id

/-- The counter and the size of a chunk agree with its list. -/
structure Chunk.Exact (region : Region) (c : Chunk) : Prop where
  alloc : c.burstsAlloc = c.burst.length
  size : c.llRegion.sz = (c.burst.map Burst.sz).sum
  paddr : c.llRegion.paddr = region.paddr
  vaddr : c.llRegion.vaddr = region.vaddr

def Loop.chunks (l : Loop) : List Chunk := l.desc.chunk ++ [l.chunk]

/-- After `i` iterations of the loop. -/
structure Loop.Built (chip : Chip) (chan : Chan) (i : ℕ) (l : Loop) : Prop where
  packed : Packed chan.llMax (l.desc.chunk.map Chunk.burst) l.chunk.burst
  exact : ∀ c ∈ l.chunks, c.Exact (chan.region chip)
  count : (bursts l.chunks).length ≤ i
  total : l.desc.allocSz = u32 (totalSz l.chunks)
  cb : ∀ j c, l.chunks[j]? = some c → c.cb = (j % 2 == 0)

theorem bursts_append (cs ds : List Chunk) : bursts (cs ++ ds) = bursts cs ++ bursts ds := by
  simp [bursts]

theorem bursts_singleton (c : Chunk) : bursts [c] = c.burst := by simp [bursts]

theorem totalSz_append (cs ds : List Chunk) : totalSz (cs ++ ds) = totalSz cs + totalSz ds := by
  simp [totalSz]

theorem totalSz_singleton (c : Chunk) : totalSz [c] = c.llRegion.sz := by simp [totalSz]

theorem allocChunk_exact (chip : Chip) (chan : Chan) (n : ℕ) :
    (allocChunk chip chan n).Exact (chan.region chip) := ⟨rfl,rfl,rfl,rfl⟩

theorem loop_start_built (chip : Chip) (chan : Chan) (vd : ℕ) (x : Transfer) :
    (Loop.start chip chan vd x).Built chip chan 0 where
  packed := packed_nil chan.llMax
  exact c hc := by
    rw [List.mem_singleton.mp hc]
    exact allocChunk_exact chip chan 0
  count := Nat.le_refl 0
  total := rfl
  cb j c hc := by
    cases j with
    | zero =>
      cases hc
      rfl
    | succ j => contradiction

/-- The chunks after a burst more: in the last chunk, or in a new one if that is full. -/
theorem room_add_chunks (chip : Chip) (chan : Chan) (l : Loop) (b : Burst) :
    ∃ init c, ((l.room chip chan).add b).desc.chunk = init ∧
      ((l.room chip chan).add b).chunk =
        { c with
          burst := c.burst ++ [b]
          burstsAlloc := u32 (c.burstsAlloc + 1)
          llRegion := { c.llRegion with sz := c.llRegion.sz + b.sz } } ∧
      ((l.chunk.burstsAlloc = chan.llMax ∧ init = l.chunks ∧
          c = allocChunk chip chan l.desc.chunksAlloc) ∨
        (l.chunk.burstsAlloc ≠ chan.llMax ∧ init = l.desc.chunk ∧ c = l.chunk)) := by
  unfold Loop.room
  split
  · rename_i hfull
    exact ⟨_,_,rfl,rfl,Or.inl ⟨hfull,rfl,rfl⟩⟩
  · rename_i hroom
    exact ⟨_,_,rfl,rfl,Or.inr ⟨hroom,rfl,rfl⟩⟩

theorem Chunk.Exact.add {r : Region} {c : Chunk} (h : c.Exact r) (b : Burst)
    (hlt : c.burst.length + 1 < 4294967296) : Chunk.Exact r
      { c with
        burst := c.burst ++ [b]
        burstsAlloc := u32 (c.burstsAlloc + 1)
        llRegion := { c.llRegion with sz := c.llRegion.sz + b.sz } } := by
  refine ⟨?_,?_,h.paddr,h.vaddr⟩
  · simp only [h.alloc,List.length_append,List.length_singleton]
    exact u32_of_lt hlt
  · simp only [h.size,List.map_append,List.sum_append,List.map_cons,List.map_nil,
      List.sum_singleton]

theorem concat_cases {α : Type*} {xs : List α} {a b : α} {j : ℕ} (h : (xs ++ [a])[j]? = some b) :
    xs[j]? = some b ∨ (j = xs.length ∧ b = a) := by
  by_cases hj : j < xs.length
  · rw [List.getElem?_append_left hj] at h
    exact Or.inl h
  · rw [List.getElem?_append_right (Nat.le_of_not_lt hj)] at h
    cases hn : j - xs.length with
    | zero =>
      rw [hn] at h
      exact Or.inr ⟨by omega,(Option.some.inj h).symm⟩
    | succ n =>
      rw [hn] at h
      contradiction

/-- `l` has room for a burst in `c`, behind the chunks `init`. -/
structure Loop.Ready (chip : Chip) (chan : Chan) (l : Loop) (b : Burst) (init : List Chunk)
    (c : Chunk) : Prop where
  exact : c.Exact (chan.region chip)
  inits : ∀ k ∈ init, k.Exact (chan.region chip)
  same : bursts (init ++ [c]) = bursts l.chunks
  total : totalSz (init ++ [c]) = totalSz l.chunks
  packed : Packed chan.llMax (init.map Chunk.burst) (c.burst ++ [b])
  cb : ∀ j k, (init ++ [c])[j]? = some k → k.cb = (j % 2 == 0)

/-- A new chunk after the last one, which is full. -/
theorem Loop.Built.ready_new {chip : Chip} {chan : Chan} {i : ℕ} {l : Loop}
    (h : l.Built chip chan i) (hll : 1 ≤ chan.llMax)
    (halloc : l.desc.chunksAlloc = l.chunks.length) (hfull : l.chunk.burst.length = chan.llMax)
    (b : Burst) : l.Ready chip chan b l.chunks (allocChunk chip chan l.desc.chunksAlloc) where
  exact := allocChunk_exact _ _ _
  inits := h.exact
  same := by
    rw [bursts_append,bursts_singleton]
    exact List.append_nil _
  total := by
    rw [totalSz_append,totalSz_singleton]
    rfl
  packed := by
    have hnext := h.packed.next hll hfull b
    rw [Loop.chunks,List.map_append]
    exact hnext
  cb j k hk := by
    rcases concat_cases hk with hk | ⟨hj,rfl⟩
    · exact h.cb j k hk
    · rw [hj,← halloc]
      rfl

theorem Loop.Built.ready_last {chip : Chip} {chan : Chan} {i : ℕ} {l : Loop}
    (h : l.Built chip chan i) (hroom : l.chunk.burst.length ≠ chan.llMax) (b : Burst) :
    l.Ready chip chan b l.desc.chunk l.chunk where
  exact := h.exact l.chunk (List.mem_append_right _ (List.mem_singleton_self _))
  inits k hk := h.exact k (List.mem_append_left _ hk)
  same := rfl
  total := rfl
  packed := h.packed.push hroom b
  cb := h.cb

theorem Loop.Built.add {chip : Chip} {chan : Chan} {i : ℕ} {l : Loop} (h : l.Built chip chan i)
    (hll : 1 ≤ chan.llMax) (hi : i + 1 < 4294967296)
    (halloc : l.desc.chunksAlloc = l.chunks.length) (b : Burst) :
    ((l.room chip chan).add b).Built chip chan (i+1) ∧
      bursts ((l.room chip chan).add b).chunks = bursts l.chunks ++ [b] := by
  obtain ⟨init,c,hinit,hc,hcase⟩ := room_add_chunks chip chan l b
  have hlast := h.exact l.chunk (List.mem_append_right _ (List.mem_singleton_self _))
  have hready : l.Ready chip chan b init c := by
    rw [hlast.alloc] at hcase
    rcases hcase with ⟨hfull,rfl,rfl⟩ | ⟨hroom,rfl,rfl⟩
    · exact h.ready_new hll halloc hfull b
    · exact h.ready_last hroom b
  have hlen : c.burst.length ≤ i := by
    have hle : c.burst.length ≤ (bursts (init ++ [c])).length := by
      rw [bursts_append,bursts_singleton,List.length_append]
      exact Nat.le_add_left _ _
    rw [hready.same] at hle
    exact Nat.le_trans hle h.count
  have hchunks : ((l.room chip chan).add b).chunks = init ++ [((l.room chip chan).add b).chunk] := by
    rw [Loop.chunks,hinit]
  have hnew : bursts ((l.room chip chan).add b).chunks = bursts l.chunks ++ [b] := by
    rw [hchunks,hc,bursts_append,bursts_singleton,← hready.same,bursts_append,bursts_singleton,
      List.append_assoc]
  refine ⟨⟨?_,?_,?_,?_,?_⟩,hnew⟩
  · rw [hinit,hc]
    exact hready.packed
  · intro k hk
    rw [hchunks] at hk
    rcases List.mem_append.mp hk with hk | hk
    · exact hready.inits k hk
    · rw [List.mem_singleton.mp hk,hc]
      exact hready.exact.add b (by omega)
  · have hcount := h.count
    rw [hnew,List.length_append,List.length_singleton]
    omega
  · have hsum : ((l.room chip chan).add b).desc.allocSz = u32 (l.desc.allocSz + b.sz) := by
      unfold Loop.room
      split <;> rfl
    rw [hsum,hchunks,hc,totalSz_append,totalSz_singleton,h.total,← hready.total,totalSz_append,
      totalSz_singleton]
    simp only [u32,Nat.mod_add_mod,Nat.add_assoc]
  · intro j k hk
    rw [hchunks,hc] at hk
    rcases concat_cases hk with hk | ⟨hj,rfl⟩
    · have hlt : j < init.length := (List.getElem?_eq_some_iff.mp hk).1
      exact hready.cb j k (by rw [List.getElem?_append_left hlt]; exact hk)
    · exact hready.cb j c (by rw [hj]; exact List.getElem?_concat_length)

theorem Loop.Built.body {chip : Chip} {chan : Chan} {vd i : ℕ} {l : Loop}
    (h : l.Built chip chan i) (hs : l.Shape chan.llMax vd i) (hll : 1 ≤ chan.llMax)
    (hi : i + 1 < 4294967296) (x : Transfer) : (l.body chip chan x i).Built chip chan (i+1) := by
  rcases loop_body_cases chip chan x l i with he | ⟨b,hd,hc⟩
  · rw [he]
    exact ⟨h.packed,h.exact,Nat.le_succ_of_le h.count,h.total,h.cb⟩
  · have halloc : l.desc.chunksAlloc = l.chunks.length := by
      rw [hs.alloc_eq,Loop.chunks,List.length_append,List.length_singleton]
    have hnew := (h.add hll hi halloc b).1
    have hchunks : (l.body chip chan x i).chunks = ((l.room chip chan).add b).chunks := by
      rw [Loop.chunks,Loop.chunks,hd,hc]
    refine ⟨?_,?_,?_,?_,?_⟩
    · rw [hd,hc]
      exact hnew.packed
    · rw [hchunks]
      exact hnew.exact
    · rw [hchunks]
      exact hnew.count
    · rw [hd,hchunks]
      exact hnew.total
    · rw [hchunks]
      exact hnew.cb

theorem loop_run_built (chip : Chip) {chan : Chan} (x : Transfer) (vd n : ℕ)
    (hll : 1 ≤ chan.llMax) (hn : n < 4294967296) :
    (Loop.run chip chan x vd n).Built chip chan n := by
  induction n with
  | zero => exact loop_start_built chip chan vd x
  | succ n ih =>
    rw [loop_run_succ]
    exact (ih (by omega)).body (loop_run_shape chip chan x vd n (by omega)) hll hn x

/-- No chunk is empty once there is a burst. -/
theorem Loop.Built.ne_nil {chip : Chip} {chan : Chan} {i : ℕ} {l : Loop} (h : l.Built chip chan i)
    (hll : 1 ≤ chan.llMax) (hne : bursts l.chunks ≠ []) : ∀ c ∈ l.chunks, c.burst ≠ [] := by
  have hlast : l.chunk.burst ≠ [] := by
    intro hnil
    apply hne
    rw [Loop.chunks,List.map_eq_nil_iff.mp (h.packed.started hnil),List.nil_append,bursts_singleton,
      hnil]
  intro c hc
  have hmem := List.mem_map_of_mem (f := Chunk.burst) hc
  rw [Loop.chunks,List.map_append] at hmem
  exact h.packed.ne_nil hll hlast _ hmem

/-- What a prep call returns. -/
structure Desc.Built (chip : Chip) (chan : Chan) (d : Desc) : Prop where
  fresh : d.Fresh
  exact : ∀ c ∈ d.chunk, c.Exact (chan.region chip)
  room : ∀ c ∈ d.chunk, c.burst.length ≤ chan.llMax
  total : d.allocSz = u32 (totalSz d.chunk)
  cb : ∀ j c, d.chunk[j]? = some c → c.cb = (j % 2 == 0)

theorem deviceTransfer_built {chip : Chip} {chan : Chan} {vd : ℕ} {x : Transfer} {d : Desc}
    (hll : 1 ≤ chan.llMax) (h : deviceTransfer chip chan vd x = some d) : d.Built chip chan := by
  have hfresh := (deviceTransfer_fresh h).1
  unfold deviceTransfer at h
  split at h <;> try contradiction
  split at h <;> try contradiction
  split at h <;> try contradiction
  cases h
  have hb := loop_run_built chip x vd x.xfer.cnt hll (xfer_cnt_lt x.xfer)
  refine ⟨hfresh,hb.exact,?_,hb.total,hb.cb⟩
  intro c hc
  have hmem := List.mem_map_of_mem (f := Chunk.burst) hc
  rw [Loop.finish,List.map_append] at hmem
  exact hb.packed.le_of_mem _ hmem

end AkidaEdma.DwEdma
