import AkidaEdma.Engine.Channel

/-! # Translation of a transfer request into a descriptor

`dw_edma_device_transfer` with its allocations succeeding; a failing allocation makes
the source return `NULL`, which the callers of this model choose at the call. The loop
state keeps the chunk that is being filled apart from the finished ones.
-/
namespace AkidaEdma.DwEdma

/-- One entry of a scatterlist, as mapped for DMA. -/
structure Sg where
  address : ℕ
  length : ℕ
  deriving DecidableEq, Repr

/-- `struct data_chunk`. -/
structure DataChunk where
  size : ℕ
  icg : ℕ
  srcIcg : ℕ
  dstIcg : ℕ
  deriving DecidableEq, Repr

/-- `struct dma_interleaved_template`, with its direction in the request. -/
structure Interleaved where
  srcStart : ℕ
  dstStart : ℕ
  srcInc : Bool
  dstInc : Bool
  srcSgl : Bool
  dstSgl : Bool
  numf : ℕ
  frameSize : ℕ
  sgl : List DataChunk
  deriving DecidableEq, Repr

/-- `union dw_edma_xfer` under its tag `enum dw_edma_xfer_type`. -/
inductive Xfer
  | scatterGather (sgl : List Sg) (len : ℕ)
  | cyclic (paddr len cnt : ℕ)
  | interleaved (il : Interleaved)
  deriving DecidableEq, Repr

/-- `struct dw_edma_transfer`, without the channel and the flags. -/
structure Transfer where
  direction : XferDirection
  xfer : Xfer
  deriving DecidableEq, Repr

/-- The kernel's `dmaengine_get_icg`. -/
def getIcg (inc sgl : Bool) (icg dirIcg : ℕ) : ℕ :=
  if inc then (if dirIcg ≠ 0 then dirIcg else if sgl then icg else 0) else 0

def getSrcIcg (il : Interleaved) (dc : DataChunk) : ℕ := getIcg il.srcInc il.srcSgl dc.icg dc.srcIcg
def getDstIcg (il : Interleaved) (dc : DataChunk) : ℕ := getIcg il.dstInc il.dstSgl dc.icg dc.dstIcg

/-- The direction test: a local engine reads with its read channels, a remote one
writes to the host with its write channels. -/
def directionOk (chip : Chip) (dir : Dir) (direction : XferDirection) : Bool :=
  if chip.isLocal then
    !((dir == .read && direction != .devToMem) || (dir == .write && direction != .memToDev))
  else
    !((dir == .write && direction != .devToMem) || (dir == .read && direction != .memToDev))

/-- The tests on the request itself. -/
def Xfer.valid : Xfer → Bool
  | .cyclic _ len cnt => len != 0 && cnt != 0
  | .scatterGather _ len => decide (1 ≤ len)
  | .interleaved il => il.numf != 0 && decide (1 ≤ il.frameSize) && il.srcInc && il.dstInc

/-- The loop bound `cnt`, a `u32`. -/
def Xfer.cnt : Xfer → ℕ
  | .cyclic _ _ cnt => u32 cnt
  | .scatterGather _ len => u32 len
  | .interleaved il => u32 (u64 (il.numf * il.frameSize))

/-- The empty chunk that `dw_edma_alloc_chunk` makes when `chunksAlloc` exist. -/
def allocChunk (chip : Chip) (chan : Chan) (chunksAlloc : ℕ) : Chunk :=
  let region := if chan.dir = .write then chip.llRegionWr chan.id else chip.llRegionRd chan.id
  ⟨[],0,chunksAlloc % 2 == 0,{ region with sz := 0 }⟩

structure Loop where
  desc : Desc
  chunk : Chunk
  srcAddr : ℕ
  dstAddr : ℕ
  sg : List Sg
  deriving DecidableEq, Repr

/-- `dw_edma_get_pci_address`. -/
def getPciAddress (chip : Chip) (addr : ℕ) : ℕ :=
  match chip.pciAddress with
  | some f => f addr
  | none => addr

/-- The state before the loop: `dw_edma_alloc_desc`, the first chunk, the addresses. -/
def Loop.start (chip : Chip) (chan : Chan) (vd : ℕ) (x : Transfer) : Loop :=
  let src := match x.xfer with
    | .interleaved il => il.srcStart
    | _ => chan.config.srcAddr
  let dst := match x.xfer with
    | .interleaved il => il.dstStart
    | _ => chan.config.dstAddr
  { desc := ⟨vd,[],1,0,0⟩
    chunk := allocChunk chip chan 0
    srcAddr := if x.direction = .devToMem then getPciAddress chip src else src
    dstAddr := if x.direction = .devToMem then dst else getPciAddress chip dst
    sg := match x.xfer with
      | .scatterGather sgl _ => sgl
      | _ => [] }

/-- A full chunk is closed and the next one opened. -/
def Loop.room (chip : Chip) (chan : Chan) (l : Loop) : Loop :=
  if l.chunk.burstsAlloc = chan.llMax then
    { l with
      desc := { l.desc with
        chunk := l.desc.chunk ++ [l.chunk]
        chunksAlloc := u32 (l.desc.chunksAlloc + 1) }
      chunk := allocChunk chip chan l.desc.chunksAlloc }
  else l

/-- `dw_edma_alloc_burst` with the fields of the burst and the two size sums. -/
def Loop.add (b : Burst) (l : Loop) : Loop :=
  { l with
    desc := { l.desc with allocSz := u32 (l.desc.allocSz + b.sz) }
    chunk := { l.chunk with
      burst := l.chunk.burst ++ [b]
      burstsAlloc := u32 (l.chunk.burstsAlloc + 1)
      llRegion := { l.chunk.llRegion with sz := l.chunk.llRegion.sz + b.sz } } }

/-- `i % fsz` of the loop: the `int` counter is extended with its sign to a `size_t`. -/
def sglIndex (i fsz : ℕ) : ℕ := (if i < 2147483648 then i else i + 18446744069414584320) % fsz

/-- One iteration of the loop; `i` is its counter. -/
def Loop.body (chip : Chip) (chan : Chan) (x : Transfer) (l : Loop) (i : ℕ) : Loop :=
  match x.xfer with
  | .cyclic paddr len _ =>
    let l := l.room chip chan
    if x.direction = .devToMem then l.add ⟨l.srcAddr,paddr,u32 len⟩
    else l.add ⟨paddr,l.dstAddr,u32 len⟩
  | .scatterGather _ _ =>
    match l.sg with
    | [] => l
    | e :: rest =>
      let l := l.room chip chan
      if x.direction = .devToMem then
        { l.add ⟨l.srcAddr,e.address,u32 e.length⟩ with
          srcAddr := u64 (l.srcAddr + e.length), sg := rest }
      else
        { l.add ⟨e.address,l.dstAddr,u32 e.length⟩ with
          dstAddr := u64 (l.dstAddr + e.length), sg := rest }
  | .interleaved il =>
    let l := l.room chip chan
    let dc := il.sgl.getD (sglIndex i il.frameSize) ⟨0,0,0,0⟩
    let sz := u32 dc.size
    { l.add ⟨l.srcAddr,l.dstAddr,sz⟩ with
      srcAddr := u64 (l.srcAddr + sz + if il.srcSgl then getSrcIcg il dc else 0)
      dstAddr := u64 (l.dstAddr + sz + if il.dstSgl then getDstIcg il dc else 0) }

/-- The loop with its first `n` iterations done. -/
def Loop.run (chip : Chip) (chan : Chan) (x : Transfer) (vd n : ℕ) : Loop :=
  (List.range n).foldl (Loop.body chip chan x) (Loop.start chip chan vd x)

def Loop.finish (l : Loop) : Desc := { l.desc with chunk := l.desc.chunk ++ [l.chunk] }

/-- `dw_edma_device_transfer`; `vd` is the identity of the allocated descriptor. -/
def deviceTransfer (chip : Chip) (chan : Chan) (vd : ℕ) (x : Transfer) : Option Desc :=
  if !chan.configured then none
  else if !directionOk chip chan.dir x.direction then none
  else if !x.xfer.valid then none
  else some (Loop.run chip chan x vd x.xfer.cnt).finish

/-! ## The shape of a descriptor -/

theorem loop_run_succ (chip : Chip) (chan : Chan) (x : Transfer) (vd n : ℕ) :
    Loop.run chip chan x vd (n+1) = (Loop.run chip chan x vd n).body chip chan x n := by
  simp only [Loop.run,List.range_succ,List.foldl_append,List.foldl_cons,List.foldl_nil]

/-- What one iteration does to the chunks: nothing once a scatterlist has ended, and
otherwise one burst more, in a new chunk exactly when the current one is full. -/
theorem loop_body_cases (chip : Chip) (chan : Chan) (x : Transfer) (l : Loop) (i : ℕ) :
    l.body chip chan x i = l ∨
    ∃ b : Burst, (l.body chip chan x i).desc = ((l.room chip chan).add b).desc ∧
      (l.body chip chan x i).chunk = ((l.room chip chan).add b).chunk := by
  unfold Loop.body
  cases x.xfer with
  | cyclic paddr len cnt =>
    right
    dsimp only
    split
    · exact ⟨_,rfl,rfl⟩
    · exact ⟨_,rfl,rfl⟩
  | scatterGather sgl len =>
    cases l.sg with
    | nil => exact Or.inl rfl
    | cons e rest =>
      right
      dsimp only
      split
      · exact ⟨_,rfl,rfl⟩
      · exact ⟨_,rfl,rfl⟩
  | interleaved il => exact Or.inr ⟨_,rfl,rfl⟩

/-- After `i` iterations: the counters agree with the lists, and a chunk was opened by
at most one iteration, the first excepted unless chunks have no room at all. -/
structure Loop.Shape (llMax vd i : ℕ) (l : Loop) : Prop where
  vd_eq : l.desc.vd = vd
  xfer_eq : l.desc.xferSz = 0
  alloc_eq : l.desc.chunksAlloc = l.desc.chunk.length + 1
  length_le : l.desc.chunk.length + 1 ≤ max 2 i
  first : i = 0 → l.desc.chunk = [] ∧ l.chunk.burstsAlloc = 0
  second : i = 1 → l.desc.chunk ≠ [] → llMax = 0 ∧ l.chunk.burstsAlloc = 1

theorem loop_start_shape (chip : Chip) (chan : Chan) (vd : ℕ) (x : Transfer) :
    (Loop.start chip chan vd x).Shape chan.llMax vd 0 where
  vd_eq := rfl
  xfer_eq := rfl
  alloc_eq := rfl
  length_le := by simp [Loop.start]
  first _ := ⟨rfl,rfl⟩
  second h := by omega

theorem Loop.Shape.body {chip : Chip} {chan : Chan} {vd i : ℕ} {l : Loop}
    (h : l.Shape chan.llMax vd i) (hi : i + 1 < 4294967296) (x : Transfer) :
    (l.body chip chan x i).Shape chan.llMax vd (i+1) := by
  obtain ⟨hvd,hxfer,halloc,hlen,hfirst,hsecond⟩ := h
  rcases loop_body_cases chip chan x l i with he | ⟨b,hd,hc⟩
  · rw [he]
    refine ⟨hvd,hxfer,halloc,by omega,by omega,?_⟩
    intro h1 hne
    exact absurd (hfirst (by omega)).1 hne
  · by_cases hfull : l.chunk.burstsAlloc = chan.llMax
    · simp only [Loop.room,hfull,if_true] at hd hc
      refine ⟨?_,?_,?_,?_,by omega,?_⟩
      · rw [hd]; exact hvd
      · rw [hd]; exact hxfer
      · rw [hd]
        simp only [Loop.add,List.length_append,List.length_singleton,halloc]
        exact u32_of_lt (by omega)
      · rw [hd]
        simp only [Loop.add,List.length_append,List.length_singleton]
        -- the second iteration opens a chunk only after a first one that did not
        by_cases hi1 : i = 1
        · have hnil : l.desc.chunk = [] := by
            by_contra hne
            obtain ⟨hz,hb⟩ := hsecond hi1 hne
            omega
          rw [hnil,List.length_nil]
          omega
        · by_cases hi0 : i = 0
          · rw [(hfirst hi0).1,List.length_nil]
            omega
          · omega
      · intro h1 _
        have hb := (hfirst (by omega)).2
        refine ⟨by omega,?_⟩
        rw [hc]
        rfl
    · simp only [Loop.room,hfull,if_false] at hd hc
      refine ⟨?_,?_,?_,?_,by omega,?_⟩
      · rw [hd]; exact hvd
      · rw [hd]; exact hxfer
      · rw [hd]; exact halloc
      · rw [hd]
        simp only [Loop.add]
        omega
      · intro h1 hne
        rw [hd] at hne
        exact absurd (hfirst (by omega)).1 hne

theorem loop_run_shape (chip : Chip) (chan : Chan) (x : Transfer) (vd n : ℕ)
    (hn : n < 4294967296) : (Loop.run chip chan x vd n).Shape chan.llMax vd n := by
  induction n with
  | zero => exact loop_start_shape chip chan vd x
  | succ n ih =>
    rw [loop_run_succ]
    exact (ih (by omega)).body hn x

theorem xfer_cnt_lt (x : Xfer) : x.cnt < 4294967296 := by
  cases x <;> exact Nat.mod_lt _ (by decide)

/-- Every descriptor that a prep call returns is fresh and carries the given identity. -/
theorem deviceTransfer_fresh {chip : Chip} {chan : Chan} {vd : ℕ} {x : Transfer} {d : Desc}
    (h : deviceTransfer chip chan vd x = some d) : d.Fresh ∧ d.vd = vd := by
  unfold deviceTransfer at h
  split at h <;> try contradiction
  split at h <;> try contradiction
  split at h <;> try contradiction
  cases h
  have hs := loop_run_shape chip chan x vd x.xfer.cnt (xfer_cnt_lt x.xfer)
  have hlt := xfer_cnt_lt x.xfer
  have hle := hs.length_le
  refine ⟨⟨?_,?_,?_,hs.xfer_eq⟩,hs.vd_eq⟩
  · simp [Loop.finish]
  · simp [Loop.finish,hs.alloc_eq]
  · simp only [Loop.finish,List.length_append,List.length_singleton]
    omega

/-- `dmaengine_prep_slave_single`: a scatterlist of one entry. -/
def prepSlaveSingle (chip : Chip) (chan : Chan) (vd buf len : ℕ) (direction : XferDirection) :
    Option Desc :=
  deviceTransfer chip chan vd ⟨direction,.scatterGather [⟨buf,len⟩] 1⟩

/-- The address on the host side of a burst. -/
def Burst.hostAddr (direction : XferDirection) (b : Burst) : ℕ :=
  if direction = .devToMem then b.dar else b.sar

/-- When chunks have room, a one-entry request is one chunk of one burst, and the
burst has the entry's address on its host side. -/
theorem prepSlaveSingle_chunk {chip : Chip} {chan : Chan} {vd buf len : ℕ}
    {direction : XferDirection} {d : Desc} (hll : 1 ≤ chan.llMax)
    (h : prepSlaveSingle chip chan vd buf len direction = some d) :
    ∃ c b, d.chunk = [c] ∧ c.burst = [b] ∧ b.hostAddr direction = buf := by
  unfold prepSlaveSingle deviceTransfer at h
  split at h <;> try contradiction
  split at h <;> try contradiction
  split at h <;> try contradiction
  cases h
  let x : Transfer := ⟨direction,.scatterGather [⟨buf,len⟩] 1⟩
  let l := Loop.start chip chan vd x
  have hroom : l.room chip chan = l := by
    have hne : ¬ (0 = chan.llMax) := by omega
    simp [l,Loop.room,Loop.start,allocChunk,hne]
  have hrun : Loop.run chip chan x vd x.xfer.cnt = l.body chip chan x 0 := rfl
  have hbody : ∃ b : Burst, b.hostAddr direction = buf ∧
      (l.body chip chan x 0).desc.chunk = [] ∧
      (l.body chip chan x 0).chunk.burst = [b] := by
    have hsg : l.sg = [⟨buf,len⟩] := rfl
    by_cases hd : direction = .devToMem
    · refine ⟨⟨l.srcAddr,buf,u32 len⟩,by simp [Burst.hostAddr,hd],?_⟩
      simp only [Loop.body,x,hsg,hroom,hd,if_true]
      exact ⟨rfl,rfl⟩
    · refine ⟨⟨buf,l.dstAddr,u32 len⟩,by simp [Burst.hostAddr,hd],?_⟩
      simp only [Loop.body,x,hsg,hroom,hd,if_false]
      exact ⟨rfl,rfl⟩
  obtain ⟨b,hb,hnil,hburst⟩ := hbody
  refine ⟨_,b,?_,hburst,hb⟩
  change (Loop.run chip chan x vd x.xfer.cnt).finish.chunk = _
  rw [hrun,Loop.finish,hnil,List.nil_append]

end AkidaEdma.DwEdma
