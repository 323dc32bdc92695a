import AkidaEdma.Engine.Build
import AkidaEdma.Engine.Cursor
import AkidaEdma.Engine.Run
import AkidaEdma.Library.PrefixSum
import Mathlib.Data.List.GetD

/-! # Interleaved requests

The translation of a template. The loop counts with an `int` up to a `u32`, takes the chunk at
the counter modulo the frame size, and keeps the size of a burst in a `u32`.
-/
namespace AkidaEdma.DwEdma
open PrefixSum Finset

/-- `dw_edma_device_prep_interleaved_dma`, with the direction of the template. -/
def prepInterleavedDma (chip : Chip) (chan : Chan) (vd : ℕ) (direction : XferDirection)
    (il : Interleaved) : Option Desc :=
  deviceTransfer chip chan vd ⟨direction,.interleaved il⟩

/-- The chunk that burst `k` is meant to move. -/
def Interleaved.template (il : Interleaved) (k : ℕ) : DataChunk :=
  il.sgl.getD (k % il.frameSize) ⟨0,0,0,0⟩

/-- The gaps behind a chunk, each if its flag is set. -/
def Interleaved.srcGap (il : Interleaved) (dc : DataChunk) : ℕ :=
  if il.srcSgl then getSrcIcg il dc else 0
def Interleaved.dstGap (il : Interleaved) (dc : DataChunk) : ℕ :=
  if il.dstSgl then getDstIcg il dc else 0

/-- The starts, as the engine sees them. -/
def Interleaved.srcBase (il : Interleaved) (chip : Chip) (direction : XferDirection) : ℕ :=
  if direction = .devToMem then getPciAddress chip il.srcStart else il.srcStart
def Interleaved.dstBase (il : Interleaved) (chip : Chip) (direction : XferDirection) : ℕ :=
  if direction = .devToMem then il.dstStart else getPciAddress chip il.dstStart

/-- `frame_size` chunks, and values that fit the C types of 64 bits. -/
structure Interleaved.Typed (il : Interleaved) (chip : Chip) (direction : XferDirection) :
    Prop where
  length : il.sgl.length = il.frameSize
  icg : ∀ dc ∈ il.sgl, dc.icg < 18446744073709551616 ∧ dc.srcIcg < 18446744073709551616 ∧
    dc.dstIcg < 18446744073709551616
  src : il.srcBase chip direction < 18446744073709551616
  dst : il.dstBase chip direction < 18446744073709551616

/-- What the tests of the request let through. -/
structure Interleaved.Accepted (il : Interleaved) : Prop where
  numf : 1 ≤ il.numf
  frameSize : 1 ≤ il.frameSize
  srcInc : il.srcInc = true
  dstInc : il.dstInc = true

/-- The descriptor moves the frames of the template, chunk by chunk. -/
structure Interleaves (chip : Chip) (direction : XferDirection) (il : Interleaved) (d : Desc) :
    Prop where
  length : (bursts d.chunk).length = il.numf * il.frameSize
  nonempty : ∀ c ∈ d.chunk, c.burst ≠ []
  burst : ∀ k < il.numf * il.frameSize, ∃ b, (bursts d.chunk)[k]? = some b ∧
    b.sz = (il.template k).size ∧
    b.sar = u64 (il.srcBase chip direction +
      ∑ j ∈ range k, ((il.template j).size + il.srcGap (il.template j))) ∧
    b.dar = u64 (il.dstBase chip direction +
      ∑ j ∈ range k, ((il.template j).size + il.dstGap (il.template j)))

/-- The number of bursts and the sizes fit 32 bits, and where the counter is extended with its
sign the chunk that is taken moves what the right one would. -/
structure Interleaved.Fits (il : Interleaved) : Prop where
  count : il.numf * il.frameSize < 4294967296
  size : ∀ dc ∈ il.sgl, dc.size < 4294967296
  size_eq : ∀ k, 2147483648 ≤ k → k < il.numf * il.frameSize →
    (il.chunkAt k).size = (il.template k).size
  gap_eq : ∀ k, 2147483648 ≤ k → k + 1 < il.numf * il.frameSize →
    il.srcGap (il.chunkAt k) = il.srcGap (il.template k) ∧
      il.dstGap (il.chunkAt k) = il.dstGap (il.template k)

/-! ## What the loop makes -/

/-- By how much burst `k` moves the two addresses. -/
def Interleaved.srcMove (il : Interleaved) (k : ℕ) : ℕ :=
  u32 (il.chunkAt k).size + il.srcGap (il.chunkAt k)
def Interleaved.dstMove (il : Interleaved) (k : ℕ) : ℕ :=
  u32 (il.chunkAt k).size + il.dstGap (il.chunkAt k)

def Interleaved.burstAt (il : Interleaved) (chip : Chip) (direction : XferDirection) (k : ℕ) :
    Burst :=
  ⟨u64 (sumTo (il.srcBase chip direction) il.srcMove k),
    u64 (sumTo (il.dstBase chip direction) il.dstMove k),u32 (il.chunkAt k).size⟩

/-- After `i` iterations. -/
structure Loop.Walks (chip : Chip) (direction : XferDirection) (il : Interleaved) (i : ℕ)
    (l : Loop) : Prop where
  srcAddr : l.srcAddr = u64 (sumTo (il.srcBase chip direction) il.srcMove i)
  dstAddr : l.dstAddr = u64 (sumTo (il.dstBase chip direction) il.dstMove i)
  bursts : bursts l.chunks = (List.range i).map (il.burstAt chip direction)

theorem loop_start_walks {chip : Chip} {direction : XferDirection} {il : Interleaved}
    (ht : il.Typed chip direction) (chan : Chan) (vd : ℕ) :
    (Loop.start chip chan vd ⟨direction,.interleaved il⟩).Walks chip direction il 0 where
  srcAddr := (Nat.mod_eq_of_lt ht.src).symm
  dstAddr := (Nat.mod_eq_of_lt ht.dst).symm
  bursts := rfl

theorem Loop.Walks.body {chip : Chip} {chan : Chan} {direction : XferDirection} {il : Interleaved}
    {vd i : ℕ} {l : Loop} (h : l.Walks chip direction il i) (hb : l.Built chip chan i)
    (hs : l.Shape chan.llMax vd i) (hll : 1 ≤ chan.llMax) (hi : i + 1 < 4294967296) :
    (l.body chip chan ⟨direction,.interleaved il⟩ i).Walks chip direction il (i+1) := by
  have halloc : l.desc.chunksAlloc = l.chunks.length := by
    rw [hs.alloc_eq,Loop.chunks,List.length_append,List.length_singleton]
  have hburst : l.cursor.burst ⟨direction,.interleaved il⟩ i = il.burstAt chip direction i := by
    simp only [Cursor.burst,Loop.cursor,h.srcAddr,h.dstAddr,Interleaved.burstAt]
  have hadd := (hb.add hll hi halloc (il.burstAt chip direction i)).2
  have hbody : l.body chip chan ⟨direction,.interleaved il⟩ i =
      ((l.room chip chan).add (il.burstAt chip direction i)).seek
        (l.cursor.next ⟨direction,.interleaved il⟩ i) := by
    rw [loop_body_cursor,← hburst]
    rfl
  rw [hbody]
  refine ⟨?_,?_,?_⟩
  · rw [u64,← sumTo_mod_succ,Interleaved.srcMove,← Nat.add_assoc]
    simp only [Loop.seek,Cursor.next,Loop.cursor,h.srcAddr,u64,Interleaved.srcGap]
  · rw [u64,← sumTo_mod_succ,Interleaved.dstMove,← Nat.add_assoc]
    simp only [Loop.seek,Cursor.next,Loop.cursor,h.dstAddr,u64,Interleaved.dstGap]
  · rw [List.range_succ,List.map_append,← h.bursts]
    exact hadd

theorem loop_run_walks {chip : Chip} {chan : Chan} {direction : XferDirection} {il : Interleaved}
    (ht : il.Typed chip direction) (hll : 1 ≤ chan.llMax) (vd n : ℕ) (hn : n < 4294967296) :
    (Loop.run chip chan ⟨direction,.interleaved il⟩ vd n).Walks chip direction il n := by
  induction n with
  | zero => exact loop_start_walks ht chan vd
  | succ n ih =>
    rw [loop_run_succ]
    exact (ih (by omega)).body (loop_run_built chip _ vd n hll (by omega))
      (loop_run_shape chip chan _ vd n (by omega)) hll hn

theorem prepInterleavedDma_bursts {chip : Chip} {chan : Chan} {direction : XferDirection}
    {il : Interleaved} (ht : il.Typed chip direction) (ha : il.Accepted) (hll : 1 ≤ chan.llMax)
    (hconf : chan.configured = true) (hdir : directionOk chip chan.dir direction = true) (vd : ℕ) :
    ∃ d, prepInterleavedDma chip chan vd direction il = some d ∧
      bursts d.chunk = (List.range (Xfer.interleaved il).cnt).map (il.burstAt chip direction) ∧
      ((Xfer.interleaved il).cnt ≠ 0 → ∀ c ∈ d.chunk, c.burst ≠ []) := by
  have hlt := xfer_cnt_lt (.interleaved il)
  have hvalid : (Xfer.interleaved il).valid = true := by
    have hnumf : il.numf ≠ 0 := Nat.one_le_iff_ne_zero.mp ha.numf
    simp [Xfer.valid,hnumf,ha.frameSize,ha.srcInc,ha.dstInc]
  have hwalks := loop_run_walks ht hll vd _ hlt
  have hbuilt := loop_run_built chip ⟨direction,.interleaved il⟩ vd _ hll hlt
  have hprep : prepInterleavedDma chip chan vd direction il = some (Loop.run chip chan
      ⟨direction,.interleaved il⟩ vd (Xfer.interleaved il).cnt).finish := by
    simp [prepInterleavedDma,deviceTransfer,hconf,hdir,hvalid]
  refine ⟨_,hprep,hwalks.bursts,?_⟩
  intro hcnt
  apply hbuilt.ne_nil hll
  rw [hwalks.bursts]
  intro hnil
  exact hcnt (List.range_eq_nil.mp (List.map_eq_nil_iff.mp hnil))

/-! ## When that is the template -/

theorem chunkAt_low (il : Interleaved) {k : ℕ} (hk : k < 2147483648) :
    il.chunkAt k = il.template k := by
  rw [Interleaved.chunkAt,sglIndex,if_pos hk,Interleaved.template]

theorem chunk_mem {chip : Chip} {direction : XferDirection} {il : Interleaved}
    (ht : il.Typed chip direction) (ha : il.Accepted) (k : ℕ) :
    il.chunkAt k ∈ il.sgl ∧ il.template k ∈ il.sgl := by
  have hlt : ∀ i, i % il.frameSize < il.sgl.length := by
    intro i
    rw [ht.length]
    exact Nat.mod_lt _ ha.frameSize
  unfold Interleaved.chunkAt Interleaved.template sglIndex
  rw [List.getD_eq_getElem _ _ (hlt _),List.getD_eq_getElem _ _ (hlt _)]
  exact ⟨List.getElem_mem _,List.getElem_mem _⟩

theorem gap_lt {chip : Chip} {direction : XferDirection} {il : Interleaved}
    (ht : il.Typed chip direction) {dc : DataChunk} (hdc : dc ∈ il.sgl) :
    il.srcGap dc < 18446744073709551616 ∧ il.dstGap dc < 18446744073709551616 := by
  obtain ⟨h1,h2,h3⟩ := ht.icg dc hdc
  unfold Interleaved.srcGap Interleaved.dstGap getSrcIcg getDstIcg getIcg
  constructor <;> split_ifs <;> omega

theorem template_of_mem {chip : Chip} {direction : XferDirection} {il : Interleaved}
    (ht : il.Typed chip direction) (ha : il.Accepted) {dc : DataChunk} (hdc : dc ∈ il.sgl) :
    ∃ k < il.numf * il.frameSize, il.template k = dc := by
  obtain ⟨k,hk,rfl⟩ := List.mem_iff_getElem.mp hdc
  have hlt : k < il.frameSize := by
    rw [← ht.length]
    exact hk
  refine ⟨k,lt_of_lt_of_le hlt (Nat.le_mul_of_pos_left _ ha.numf),?_⟩
  rw [Interleaved.template,Nat.mod_eq_of_lt hlt,List.getD_eq_getElem _ _ hk]

theorem add_gap_modEq {m a g g' : ℕ} (hg : g < m) (hg' : g' < m) (h : a + g ≡ a + g' [MOD m]) :
    g = g' :=
  (Nat.ModEq.add_left_cancel' a h).eq_of_lt_of_lt hg hg'

theorem fits_of_interleaves {chip : Chip} {direction : XferDirection} {il : Interleaved} {d : Desc}
    (ht : il.Typed chip direction) (ha : il.Accepted)
    (hb : bursts d.chunk = (List.range (Xfer.interleaved il).cnt).map (il.burstAt chip direction))
    (h : Interleaves chip direction il d) : il.Fits := by
  have hlen := h.length
  rw [hb,List.length_map,List.length_range] at hlen
  have hcount : il.numf * il.frameSize < 4294967296 := by
    rw [← hlen]
    exact xfer_cnt_lt _
  have hburst : ∀ k < il.numf * il.frameSize, u32 (il.chunkAt k).size = (il.template k).size ∧
      sumTo (il.srcBase chip direction) il.srcMove k ≡ sumTo (il.srcBase chip direction)
        (fun j => (il.template j).size + il.srcGap (il.template j)) k [MOD 18446744073709551616] ∧
      sumTo (il.dstBase chip direction) il.dstMove k ≡ sumTo (il.dstBase chip direction)
        (fun j => (il.template j).size + il.dstGap (il.template j)) k
          [MOD 18446744073709551616] := by
    intro k hk
    obtain ⟨b,hkb,hsz,hsar,hdar⟩ := h.burst k hk
    rw [hb,List.getElem?_map,List.getElem?_range (by rw [hlen]; exact hk)] at hkb
    cases hkb
    exact ⟨hsz,hsar,hdar⟩
  have hsize : ∀ dc ∈ il.sgl, dc.size < 4294967296 := by
    intro dc hdc
    obtain ⟨k,hk,rfl⟩ := template_of_mem ht ha hdc
    rw [← (hburst k hk).1]
    exact Nat.mod_lt _ (by decide)
  have hu32 : ∀ k, u32 (il.chunkAt k).size = (il.chunkAt k).size := fun k =>
    u32_of_lt (hsize _ (chunk_mem ht ha k).1)
  refine ⟨hcount,hsize,fun k _ hk => ?_,fun k _ hk => ?_⟩
  · rw [← hu32,(hburst k hk).1]
  · have hmove := (sumTo_modEq_iff _ _ _ _).mp (fun k hk => (hburst k hk).2.1) k hk
    have hmove' := (sumTo_modEq_iff _ _ _ _).mp (fun k hk => (hburst k hk).2.2) k hk
    simp only [Interleaved.srcMove,Interleaved.dstMove,(hburst k (by omega)).1] at hmove hmove'
    obtain ⟨hc,hc'⟩ := chunk_mem ht ha k
    exact ⟨add_gap_modEq (gap_lt ht hc).1 (gap_lt ht hc').1 hmove,
      add_gap_modEq (gap_lt ht hc).2 (gap_lt ht hc').2 hmove'⟩

theorem interleaves_of_fits {chip : Chip} {direction : XferDirection} {il : Interleaved} {d : Desc}
    (ht : il.Typed chip direction) (ha : il.Accepted)
    (hb : bursts d.chunk = (List.range (Xfer.interleaved il).cnt).map (il.burstAt chip direction))
    (hne : (Xfer.interleaved il).cnt ≠ 0 → ∀ c ∈ d.chunk, c.burst ≠ []) (h : il.Fits) :
    Interleaves chip direction il d := by
  have hcnt : (Xfer.interleaved il).cnt = il.numf * il.frameSize := by
    have hlt := h.count
    simp only [Xfer.cnt,u32,u64]
    omega
  have hsize : ∀ k < il.numf * il.frameSize, u32 (il.chunkAt k).size = (il.template k).size := by
    intro k hk
    rw [u32_of_lt (h.size _ (chunk_mem ht ha k).1)]
    by_cases hlow : k < 2147483648
    · rw [chunkAt_low il hlow]
    · exact h.size_eq k (by omega) hk
  have hgap : ∀ k, k + 1 < il.numf * il.frameSize →
      il.srcGap (il.chunkAt k) = il.srcGap (il.template k) ∧
        il.dstGap (il.chunkAt k) = il.dstGap (il.template k) := by
    intro k hk
    by_cases hlow : k < 2147483648
    · rw [chunkAt_low il hlow]
      exact ⟨rfl,rfl⟩
    · exact h.gap_eq k (by omega) hk
  have hpos : 1 ≤ il.numf * il.frameSize := Nat.mul_pos ha.numf ha.frameSize
  rw [hcnt] at hb hne
  refine ⟨by rw [hb,List.length_map,List.length_range],hne (by omega),fun k hk => ?_⟩
  refine ⟨il.burstAt chip direction k,?_,hsize k hk,?_,?_⟩
  · rw [hb,List.getElem?_map,List.getElem?_range hk]
    rfl
  · refine congrArg u64 (sumTo_congr _ fun j hj => ?_)
    rw [Interleaved.srcMove,hsize j (by omega),(hgap j (by omega)).1]
  · refine congrArg u64 (sumTo_congr _ fun j hj => ?_)
    rw [Interleaved.dstMove,hsize j (by omega),(hgap j (by omega)).2]

/-- An accepted template is moved burst by burst exactly when it fits. -/
theorem interleaved_translated_iff {chip : Chip} {chan : Chan} {direction : XferDirection}
    {il : Interleaved} (ht : il.Typed chip direction) (ha : il.Accepted) (hll : 1 ≤ chan.llMax)
    (hconf : chan.configured = true) (hdir : directionOk chip chan.dir direction = true) (vd : ℕ) :
    ∃ d, prepInterleavedDma chip chan vd direction il = some d ∧
      (Interleaves chip direction il d ↔ il.Fits) := by
  obtain ⟨d,hd,hb,hne⟩ := prepInterleavedDma_bursts ht ha hll hconf hdir vd
  exact ⟨d,hd,fits_of_interleaves ht ha hb,interleaves_of_fits ht ha hb hne⟩

/-- A configured channel whose chunks take two bursts. -/
def frameChan : Chan := ⟨0,.write,2,.none,.idle,true,⟨0,0⟩,[],[],[]⟩

/-- As many frames of one chunk as a `u32` counts, and one more. -/
def manyFrames : Interleaved := ⟨0x1000,0x8000,true,true,true,false,4294967296,1,[⟨4,16,0,0⟩]⟩

theorem manyFrames_lost : ∃ d, prepInterleavedDma plainChip frameChan 0 .devToMem manyFrames =
    some d ∧ bursts d.chunk = [] ∧ ¬ Interleaves plainChip .devToMem manyFrames d := by
  refine ⟨_,rfl,rfl,?_⟩
  intro h
  exact absurd h.length (by decide)

/-- Two frames of two chunks, with gaps at the source. -/
def twoFrames : Interleaved :=
  ⟨0x1000,0x8000,true,true,true,false,2,2,[⟨4,16,0,0⟩,⟨8,0,32,0⟩]⟩

theorem twoFrames_translated : ∃ d,
    prepInterleavedDma plainChip frameChan 0 .devToMem twoFrames = some d ∧
      Interleaves plainChip .devToMem twoFrames d := by
  have ht : twoFrames.Typed plainChip .devToMem := ⟨by decide,by decide,by decide,by decide⟩
  have ha : twoFrames.Accepted := ⟨by decide,by decide,rfl,rfl⟩
  obtain ⟨d,hd,hiff⟩ := interleaved_translated_iff ht ha (show 1 ≤ frameChan.llMax by decide) rfl
    rfl 0
  have hcount : twoFrames.numf * twoFrames.frameSize = 4 := rfl
  exact ⟨d,hd,hiff.mpr ⟨by decide,by decide,fun k _ _ => by omega,fun k _ _ => by omega⟩⟩

end AkidaEdma.DwEdma
