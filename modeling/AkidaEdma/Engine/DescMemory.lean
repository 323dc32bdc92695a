import AkidaEdma.Engine.Build
import AkidaEdma.Engine.Cursor
import AkidaEdma.Library.ListHead

/-! # The memory of the descriptors

The allocations of `dw_edma_device_transfer` and what frees them, on a heap of live objects. An
access to an object that is not live, or its release, fails; `kzalloc` may return `NULL` at any
call. The lists have their heads: a chunk without bursts at the head of the chunks, a burst at
the head of the bursts of every other chunk.
-/
namespace AkidaEdma.DescMemory
open DwEdma ListHead

/-- `struct dw_edma_chunk` without its links. -/
structure ChunkObj where
  burst : Option ℕ
  burstsAlloc : ℕ
  cb : Bool
  llRegion : Region
  deriving DecidableEq, Repr

/-- `struct dw_edma_desc`. -/
structure DescObj where
  chunk : Option ℕ
  chunksAlloc : ℕ
  allocSz : ℕ
  xferSz : ℕ
  deriving DecidableEq, Repr

/-- The live objects. An object is named by the number of the call of `kzalloc` that made it, so
that no name is used twice. -/
structure Heap where
  calls : ℕ
  descs : ℕ → Option DescObj
  chunks : Pool ℕ ChunkObj
  bursts : Pool ℕ Burst

/-- The lists of the `virt_dma_chan` of a `struct dw_edma_chan` hold descriptors by name. -/
structure MemChan where
  id : ℕ
  dir : Dir
  llMax : ℕ
  request : Request
  status : Status
  configured : Bool
  config : SlaveConfig
  descAllocated : List ℕ
  descSubmitted : List ℕ
  descIssued : List ℕ
  descCompleted : List ℕ
  deriving DecidableEq, Repr

/-- The channel without its descriptors. -/
def MemChan.chan (c : MemChan) : Chan :=
  ⟨c.id,c.dir,c.llMax,c.request,c.status,c.configured,c.config,[],[],[]⟩

def Heap.setDesc (h : Heap) (desc : ℕ) (f : DescObj → DescObj) : Option Heap :=
  (h.descs desc).map fun d => { h with descs := Function.update h.descs desc (some (f d)) }

def Heap.setChunk (h : Heap) (chunk : ℕ) (f : ChunkObj → ChunkObj) : Option Heap :=
  (setVal h.chunks chunk f).map fun p => { h with chunks := p }

def Heap.setBurst (h : Heap) (burst : ℕ) (f : Burst → Burst) : Option Heap :=
  (setVal h.bursts burst f).map fun p => { h with bursts := p }

def Heap.kfreeDesc (h : Heap) (desc : ℕ) : Option Heap :=
  (h.descs desc).map fun _ => { h with descs := Function.update h.descs desc none }

def Heap.kfreeChunk (h : Heap) (chunk : ℕ) : Option Heap :=
  (free h.chunks chunk).map fun p => { h with chunks := p }

def Heap.kfreeBurst (h : Heap) (burst : ℕ) : Option Heap :=
  (free h.bursts burst).map fun p => { h with bursts := p }

/-- A call of `kzalloc`. -/
def Heap.call (h : Heap) : Heap := { h with calls := h.calls + 1 }

/-! ## The functions

`os` tells which calls of `kzalloc` succeed. The second part of a result is `none` for `NULL`. -/
section
variable (os : ℕ → Bool) (chip : Chip) (chan : Chan)

/-- `dw_edma_alloc_burst`. -/
def allocBurst (h : Heap) (chunk : ℕ) : Option (Heap × Option ℕ) :=
  if os h.calls = false then some (h.call,none)
  else
    let burst := h.calls
    let h := { h.call with bursts := new h.bursts burst ⟨0,0,0⟩ }
    (h.chunks chunk).bind fun c =>
    match c.val.burst with
    | some head =>
      (h.setChunk chunk fun c => { c with burstsAlloc := u32 (c.burstsAlloc + 1) }).bind fun h =>
      (addTail h.bursts burst head).map fun p => ({ h with bursts := p },some burst)
    | none =>
      (h.setChunk chunk fun c => { c with burstsAlloc := 0, burst := some burst }).map fun h =>
        (h,some burst)

/-- `dw_edma_alloc_chunk`. -/
def allocChunk (h : Heap) (desc : ℕ) : Option (Heap × Option ℕ) :=
  (h.descs desc).bind fun d =>
  if os h.calls = false then some (h.call,none)
  else
    let chunk := h.calls
    let region := if chan.dir = .write then chip.llRegionWr chan.id else chip.llRegionRd chan.id
    let h := { h.call with
      chunks := new h.chunks chunk ⟨none,0,d.chunksAlloc % 2 == 0,{ region with sz := 0 }⟩ }
    match d.chunk with
    | some head =>
      (allocBurst os h chunk).bind fun r =>
      match r.2 with
      | none => (r.1.kfreeChunk chunk).map fun h => (h,none)
      | some _ =>
        (r.1.setDesc desc fun d => { d with chunksAlloc := u32 (d.chunksAlloc + 1) }).bind fun h =>
        (addTail h.chunks chunk head).map fun p => ({ h with chunks := p },some chunk)
    | none =>
      (h.setDesc desc fun d => { d with chunksAlloc := 0, chunk := some chunk }).map fun h =>
        (h,some chunk)

/-- `dw_edma_alloc_desc`. -/
def allocDesc (h : Heap) : Option (Heap × Option ℕ) :=
  if os h.calls = false then some (h.call,none)
  else
    let desc := h.calls
    let h := { h.call with descs := Function.update h.descs desc (some ⟨none,0,0,0⟩) }
    (allocChunk os chip chan h desc).bind fun r =>
    match r.2 with
    | none => (r.1.kfreeDesc desc).map fun h => (h,none)
    | some _ => some (r.1,some desc)

/-- A burst is taken out of the list of a chunk and freed. -/
def dropBurst (chunk : ℕ) (h : Heap) (child : ℕ) : Option Heap :=
  (del h.bursts child).bind fun p =>
  ({ h with bursts := p }.kfreeBurst child).bind fun h =>
  h.setChunk chunk fun c => { c with burstsAlloc := u32 (c.burstsAlloc + 4294967295) }

/-- `dw_edma_free_burst`. No list is longer than the number of calls of `kzalloc`. -/
def freeBurst (h : Heap) (chunk : ℕ) : Option Heap :=
  (h.chunks chunk).bind fun c =>
  c.val.burst.bind fun head =>
  (forEachSafeEntry Heap.bursts (dropBurst chunk) head h.calls h).bind fun r =>
  (r.1.kfreeBurst r.2).bind fun h => h.setChunk chunk fun c => { c with burst := none }

/-- A chunk is taken out of the list of a descriptor and freed. -/
def dropChunk (desc : ℕ) (h : Heap) (child : ℕ) : Option Heap :=
  (freeBurst h child).bind fun h =>
  (del h.chunks child).bind fun p =>
  ({ h with chunks := p }.kfreeChunk child).bind fun h =>
  h.setDesc desc fun d => { d with chunksAlloc := u32 (d.chunksAlloc + 4294967295) }

/-- `dw_edma_free_chunk`. -/
def freeChunk (h : Heap) (desc : ℕ) : Option Heap :=
  (h.descs desc).bind fun d =>
  match d.chunk with
  | none => some h
  | some head =>
    (forEachSafeEntry Heap.chunks (dropChunk desc) head h.calls h).bind fun r =>
    (r.1.kfreeChunk r.2).bind fun h => h.setDesc desc fun d => { d with chunk := none }

/-- `dw_edma_free_desc`. -/
def freeDesc (h : Heap) (desc : ℕ) : Option Heap :=
  (freeChunk h desc).bind fun h => h.kfreeDesc desc

/-- What `dw_edma_core_start` reads of a chunk. -/
def readChunk (h : Heap) (chunk : ℕ) : Option Chunk :=
  (h.chunks chunk).bind fun c =>
  c.val.burst.bind fun head =>
  (h.bursts head).bind fun n =>
  (values h.bursts head h.calls n.next).map fun bs => ⟨bs,c.val.burstsAlloc,c.val.cb,c.val.llRegion⟩

/-- `dw_edma_start_transfer`, with the call of `dw_edma_core_start` where it returns 1. -/
def startTransfer (c : MemChan) (h : Heap) : Option (Heap × Option Started) :=
  match c.descIssued with
  | [] => some (h,none)
  | desc :: _ =>
    (h.descs desc).bind fun d =>
    d.chunk.bind fun head =>
    (h.chunks head).bind fun n =>
    if n.next = head then some (h,none)
    else
      let child := n.next
      (readChunk h child).bind fun chunk =>
      (h.setDesc desc fun d => { d with xferSz := u32 (d.xferSz + chunk.llRegion.sz) }).bind fun h =>
      (dropChunk desc h child).map fun h => (h,some ⟨desc,chunk,d.xferSz == 0⟩)

/-- The state of the loop: the chunk that is being filled, and the cursor. -/
structure Filling where
  chunk : ℕ
  cur : Cursor
  deriving DecidableEq, Repr

/-- A full chunk gives way to a new one. -/
def room (desc : ℕ) (h : Heap) (chunk : ℕ) : Option (Heap × Option ℕ) :=
  (h.chunks chunk).bind fun c =>
  if c.val.burstsAlloc = chan.llMax then allocChunk os chip chan h desc else some (h,some chunk)

/-- A burst more in a chunk, with its fields and the two sizes. -/
def addBurst (desc : ℕ) (b : Burst) (h : Heap) (chunk : ℕ) : Option (Heap × Option ℕ) :=
  (allocBurst os h chunk).bind fun r =>
  match r.2 with
  | none => some (r.1,none)
  | some burst =>
    (r.1.setBurst burst fun _ => b).bind fun h =>
    (h.setChunk chunk fun c => { c with llRegion := { c.llRegion with sz := c.llRegion.sz + b.sz } }).bind
      fun h =>
    (h.setDesc desc fun d => { d with allocSz := u32 (d.allocSz + b.sz) }).map fun h => (h,some burst)

/-- One iteration of the loop; `none` in its result is a jump to `err_alloc`. -/
def body (x : Transfer) (desc : ℕ) (h : Heap) (s : Filling) (i : ℕ) : Option (Heap × Option Filling) :=
  if s.cur.ended x then some (h,some s)
  else
    (room os chip chan desc h s.chunk).bind fun r =>
    match r.2 with
    | none => some (r.1,none)
    | some chunk =>
      (addBurst os desc (s.cur.burst x i) r.1 chunk).map fun r =>
        (r.1,r.2.map fun _ => ⟨chunk,s.cur.next x i⟩)

/-- The loop with its first `n` iterations done. -/
def run (x : Transfer) (desc : ℕ) (h : Heap) (s : Filling) : ℕ → Option (Heap × Option Filling)
  | 0 => some (h,some s)
  | n+1 => (run x desc h s n).bind fun r =>
    match r.2 with
    | none => some r
    | some s => body os chip chan x desc r.1 s n

end

/-- `dw_edma_device_transfer`, with the descriptor in the channel if it returns one. -/
def deviceTransfer (os : ℕ → Bool) (chip : Chip) (c : MemChan) (x : Transfer) (h : Heap) :
    Option (Heap × MemChan × Option ℕ) :=
  if !c.configured then some (h,c,none)
  else if !directionOk chip c.dir x.direction then some (h,c,none)
  else if !x.xfer.valid then some (h,c,none)
  else
    (allocDesc os chip c.chan h).bind fun r =>
    match r.2 with
    | none => some (r.1,c,none)
    | some desc =>
      (allocChunk os chip c.chan r.1 desc).bind fun r =>
      match r.2 with
      | none => (freeDesc r.1 desc).map fun h => (h,c,none)
      | some chunk =>
        (run os chip c.chan x desc r.1 ⟨chunk,Cursor.start chip c.chan x⟩ x.xfer.cnt).bind fun r =>
        match r.2 with
        | none => (freeDesc r.1 desc).map fun h => (h,c,none)
        | some _ => some (r.1,{ c with descAllocated := c.descAllocated ++ [desc] },some desc)

end AkidaEdma.DescMemory
