import AkidaEdma.Engine.Transfer

/-! # The running addresses of a request

What one iteration of the loop of `dw_edma_device_transfer` takes from the request: the burst,
and the addresses and the scatterlist that are left for the next one. Where the burst goes is
left out.
-/
namespace AkidaEdma.DwEdma

/-- `src_addr`, `dst_addr` and `sg`. -/
structure Cursor where
  srcAddr : ℕ
  dstAddr : ℕ
  sg : List Sg
  deriving DecidableEq, Repr

/-- Before the loop. -/
def Cursor.start (chip : Chip) (chan : Chan) (x : Transfer) : Cursor :=
  let src := match x.xfer with
    | .interleaved il => il.srcStart
    | _ => chan.config.srcAddr
  let dst := match x.xfer with
    | .interleaved il => il.dstStart
    | _ => chan.config.dstAddr
  { srcAddr := if x.direction = .devToMem then getPciAddress chip src else src
    dstAddr := if x.direction = .devToMem then dst else getPciAddress chip dst
    sg := match x.xfer with
      | .scatterGather sgl _ => sgl
      | _ => [] }

/-- The `break` of the loop: the scatterlist has ended. -/
def Cursor.ended (x : Transfer) (c : Cursor) : Bool :=
  match x.xfer with
  | .scatterGather _ _ => c.sg.isEmpty
  | _ => false

def Interleaved.chunkAt (il : Interleaved) (i : ℕ) : DataChunk :=
  il.sgl.getD (sglIndex i il.frameSize) ⟨0,0,0,0⟩

/-- The fields of the burst of iteration `i`. -/
def Cursor.burst (x : Transfer) (c : Cursor) (i : ℕ) : Burst :=
  match x.xfer with
  | .cyclic paddr len _ =>
    if x.direction = .devToMem then ⟨c.srcAddr,paddr,u32 len⟩ else ⟨paddr,c.dstAddr,u32 len⟩
  | .scatterGather _ _ =>
    let e := c.sg.headD ⟨0,0⟩
    if x.direction = .devToMem then ⟨c.srcAddr,e.address,u32 e.length⟩
    else ⟨e.address,c.dstAddr,u32 e.length⟩
  | .interleaved il => ⟨c.srcAddr,c.dstAddr,u32 (il.chunkAt i).size⟩

/-- After iteration `i`. -/
def Cursor.next (x : Transfer) (c : Cursor) (i : ℕ) : Cursor :=
  match x.xfer with
  | .cyclic _ _ _ => c
  | .scatterGather _ _ =>
    let e := c.sg.headD ⟨0,0⟩
    if x.direction = .devToMem then ⟨u64 (c.srcAddr + e.length),c.dstAddr,c.sg.tail⟩
    else ⟨c.srcAddr,u64 (c.dstAddr + e.length),c.sg.tail⟩
  | .interleaved il =>
    let dc := il.chunkAt i
    let sz := u32 dc.size
    { c with
      srcAddr := u64 (c.srcAddr + sz + if il.srcSgl then getSrcIcg il dc else 0)
      dstAddr := u64 (c.dstAddr + sz + if il.dstSgl then getDstIcg il dc else 0) }

def Loop.cursor (l : Loop) : Cursor := ⟨l.srcAddr,l.dstAddr,l.sg⟩

def Loop.seek (c : Cursor) (l : Loop) : Loop :=
  { l with srcAddr := c.srcAddr, dstAddr := c.dstAddr, sg := c.sg }

@[simp] theorem room_cursor (chip : Chip) (chan : Chan) (l : Loop) :
    (l.room chip chan).cursor = l.cursor := by
  unfold Loop.room
  split <;> rfl

/-- An iteration of the loop by its burst and the cursor it leaves. -/
theorem loop_body_cursor (chip : Chip) (chan : Chan) (x : Transfer) (l : Loop) (i : ℕ) :
    l.body chip chan x i =
      if l.cursor.ended x then l
      else ((l.room chip chan).add (l.cursor.burst x i)).seek (l.cursor.next x i) := by
  have hroom := room_cursor chip chan l
  simp only [Loop.cursor,Cursor.mk.injEq] at hroom
  obtain ⟨hsrc,hdst,hsg⟩ := hroom
  unfold Loop.body Cursor.ended Cursor.burst Cursor.next
  cases x.xfer with
  | cyclic paddr len cnt =>
    simp only [Bool.false_eq_true,if_false,Loop.seek,Loop.cursor,← hsrc,← hdst,← hsg]
    split <;> rfl
  | scatterGather sgl len =>
    cases hl : l.sg with
    | nil => simp [Loop.cursor,hl]
    | cons e rest =>
      simp only [Loop.cursor,hl,List.isEmpty_cons,Bool.false_eq_true,if_false,List.headD_cons,
        List.tail_cons,Loop.seek]
      split
      · simp [Loop.add,hsrc,hdst]
      · simp [Loop.add,hsrc,hdst]
  | interleaved il =>
    simp only [Bool.false_eq_true,if_false,Loop.seek,Loop.cursor,Interleaved.chunkAt,hsrc,hdst]
    simp [Loop.add,hsg]

end AkidaEdma.DwEdma
