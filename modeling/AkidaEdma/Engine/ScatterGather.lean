import AkidaEdma.Engine.Build
import AkidaEdma.Engine.Run

/-! # Scatter-gather requests

The translation of a scatterlist, entry by entry: the host side of a burst is the entry, and
the device side goes on where the entry before it ended.
-/
namespace AkidaEdma.DwEdma
open Packing

/-- The address on the device side of a burst. -/
def Burst.deviceAddr (direction : XferDirection) (b : Burst) : ℕ :=
  if direction = .devToMem then b.sar else b.dar

/-- The device address of the slave config, as the engine sees it. -/
def deviceBase (chip : Chip) (chan : Chan) (direction : XferDirection) : ℕ :=
  getPciAddress chip (if direction = .devToMem then chan.config.srcAddr else chan.config.dstAddr)

def totalLength (sgl : List Sg) : ℕ := (sgl.map Sg.length).sum

/-- The values fit the C types that hold them: a count and lengths of `unsigned int`, a base
of `u64`. -/
structure Typed (chip : Chip) (chan : Chan) (direction : XferDirection) (sgl : List Sg) : Prop where
  count : sgl.length < 4294967296
  length : ∀ e ∈ sgl, e.length < 4294967296
  base : deviceBase chip chan direction < 18446744073709551616

/-- The descriptor is the translation of the scatterlist. -/
structure Translated (chip : Chip) (chan : Chan) (direction : XferDirection) (sgl : List Sg)
    (d : Desc) : Prop where
  length : (bursts d.chunk).length = sgl.length
  burst : ∀ k e, sgl[k]? = some e → ∃ b, (bursts d.chunk)[k]? = some b ∧ b.sz = e.length ∧
    b.hostAddr direction = e.address ∧ b.deviceAddr direction =
      u64 (deviceBase chip chan direction + totalLength (sgl.take k))
  full : ∀ c ∈ d.chunk.dropLast, c.burst.length = chan.llMax
  nonempty : ∀ c ∈ d.chunk, 1 ≤ c.burst.length ∧ c.burst.length ≤ chan.llMax
  count : d.chunk.length = (sgl.length + chan.llMax - 1) / chan.llMax
  burstsAlloc : ∀ c ∈ d.chunk, c.burstsAlloc = c.burst.length
  chunksAlloc : d.chunksAlloc = d.chunk.length
  size : ∀ c ∈ d.chunk, c.llRegion.sz = (c.burst.map Burst.sz).sum
  allocSz : d.allocSz = u32 (totalLength sgl)
  cb : ∀ j c, d.chunk[j]? = some c → c.cb = (j % 2 == 0)

/-- The address that the loop counts up. -/
def Loop.device (direction : XferDirection) (l : Loop) : ℕ :=
  if direction = .devToMem then l.srcAddr else l.dstAddr

/-- The burst of an entry at a device address. -/
def Sg.burst (direction : XferDirection) (device : ℕ) (e : Sg) : Burst :=
  if direction = .devToMem then ⟨device,e.address,u32 e.length⟩
  else ⟨e.address,device,u32 e.length⟩

theorem sg_burst_host (direction : XferDirection) (device : ℕ) (e : Sg) :
    (e.burst direction device).hostAddr direction = e.address := by
  unfold Burst.hostAddr Sg.burst
  split <;> rfl

theorem sg_burst_device (direction : XferDirection) (device : ℕ) (e : Sg) :
    (e.burst direction device).deviceAddr direction = device := by
  unfold Burst.deviceAddr Sg.burst
  split <;> rfl

theorem sg_burst_sz (direction : XferDirection) (device : ℕ) (e : Sg) :
    (e.burst direction device).sz = u32 e.length := by
  unfold Sg.burst
  split <;> rfl

/-- After `i` entries. -/
structure Loop.Reads (direction : XferDirection) (base : ℕ) (sgl : List Sg) (i : ℕ) (l : Loop) :
    Prop where
  sg : l.sg = sgl.drop i
  device : l.device direction = u64 (base + totalLength (sgl.take i))
  length : (bursts l.chunks).length = i
  burst : ∀ k e, k < i → sgl[k]? = some e → (bursts l.chunks)[k]? =
    some (e.burst direction (u64 (base + totalLength (sgl.take k))))

theorem totalLength_take_succ {sgl : List Sg} {i : ℕ} {e : Sg} (h : sgl[i]? = some e) :
    totalLength (sgl.take (i+1)) = totalLength (sgl.take i) + e.length := by
  simp [totalLength,List.take_add_one,h]

theorem body_scatterGather (chip : Chip) (chan : Chan) (direction : XferDirection)
    (sgl rest : List Sg) (len i : ℕ) {l : Loop} {e : Sg} (h : l.sg = e :: rest) :
    let m := l.body chip chan ⟨direction,.scatterGather sgl len⟩ i
    let r := (l.room chip chan).add (e.burst direction (l.device direction))
    m.desc = r.desc ∧ m.chunk = r.chunk ∧ m.sg = rest ∧
      m.device direction = u64 (l.device direction + e.length) := by
  have hroom : (l.room chip chan).srcAddr = l.srcAddr ∧ (l.room chip chan).dstAddr = l.dstAddr := by
    unfold Loop.room
    split <;> exact ⟨rfl,rfl⟩
  obtain ⟨hsrc,hdst⟩ := hroom
  by_cases hd : direction = .devToMem
  · simp only [Loop.body,h,hd,if_true,Sg.burst,Loop.device,hsrc,and_self]
  · simp only [Loop.body,h,hd,if_false,Sg.burst,Loop.device,hdst,and_self]

theorem Loop.Reads.body {chip : Chip} {chan : Chan} {direction : XferDirection} {base vd i : ℕ}
    {sgl : List Sg} {l : Loop} (h : l.Reads direction base sgl i) (hb : l.Built chip chan i)
    (hs : l.Shape chan.llMax vd i) (hll : 1 ≤ chan.llMax) (hi : i < sgl.length)
    (hlt : i + 1 < 4294967296) (len : ℕ) :
    (l.body chip chan ⟨direction,.scatterGather sgl len⟩ i).Reads direction base sgl (i+1) := by
  have he : sgl[i]? = some sgl[i] := List.getElem?_eq_getElem hi
  have hsg : l.sg = sgl[i] :: sgl.drop (i+1) := by
    rw [h.sg]
    exact List.drop_eq_getElem_cons hi
  obtain ⟨hd,hc,hrest,hdev⟩ := body_scatterGather chip chan direction sgl _ len i hsg
  have halloc : l.desc.chunksAlloc = l.chunks.length := by
    rw [hs.alloc_eq,Loop.chunks,List.length_append,List.length_singleton]
  have hnew := (hb.add hll hlt halloc (sgl[i].burst direction (l.device direction))).2
  have hbursts : bursts (l.body chip chan ⟨direction,.scatterGather sgl len⟩ i).chunks =
      bursts l.chunks ++ [sgl[i].burst direction (l.device direction)] := by
    rw [← hnew,Loop.chunks,Loop.chunks,hd,hc]
  refine ⟨hrest,?_,?_,?_⟩
  · rw [hdev,h.device,totalLength_take_succ he]
    simp only [u64,Nat.mod_add_mod,Nat.add_assoc]
  · rw [hbursts,List.length_append,List.length_singleton,h.length]
  · intro k e hk hke
    rw [hbursts]
    by_cases hki : k < i
    · rw [List.getElem?_append_left (by rw [h.length]; exact hki)]
      exact h.burst k e hki hke
    · have hkeq : k = (bursts l.chunks).length := by
        rw [h.length]
        omega
      have hei : e = sgl[i] := by
        rw [h.length] at hkeq
        rw [hkeq,he] at hke
        exact (Option.some.inj hke).symm
      rw [hkeq,List.getElem?_concat_length,hei,h.device,h.length]

theorem run_reads {chip : Chip} {chan : Chan} {direction : XferDirection} {sgl : List Sg}
    (ht : Typed chip chan direction sgl) (hll : 1 ≤ chan.llMax) (vd len : ℕ) :
    ∀ i, i ≤ sgl.length → (Loop.run chip chan ⟨direction,.scatterGather sgl len⟩ vd i).Reads
      direction (deviceBase chip chan direction) sgl i := by
  have hcount := ht.count
  intro i
  induction i with
  | zero =>
    intro _
    refine ⟨rfl,?_,rfl,fun k _ hk => absurd hk (Nat.not_lt_zero k)⟩
    have hbase : Loop.device direction (Loop.start chip chan vd ⟨direction,.scatterGather sgl len⟩) =
        deviceBase chip chan direction := by
      by_cases hd : direction = .devToMem <;> simp [Loop.device,Loop.start,deviceBase,hd]
    exact hbase.trans (Nat.mod_eq_of_lt ht.base).symm
  | succ i ih =>
    intro hi
    rw [loop_run_succ]
    exact (ih (by omega)).body (loop_run_built chip _ vd i hll (by omega))
      (loop_run_shape chip chan _ vd i (by omega)) hll hi (by omega) len

/-- The bytes of a descriptor are those of its bursts. -/
theorem totalSz_eq {region : Region} {cs : List Chunk} (h : ∀ c ∈ cs, c.Exact region) :
    totalSz cs = ((bursts cs).map Burst.sz).sum := by
  induction cs with
  | nil => rfl
  | cons c cs ih =>
    have hc := (h c List.mem_cons_self).size
    have hcs := ih (fun k hk => h k (List.mem_cons_of_mem c hk))
    simp only [totalSz,bursts,List.map_cons,List.sum_cons,List.flatten_cons,List.map_append,
      List.sum_append] at hcs ⊢
    rw [hc,hcs]

/-- Bursts that match the entries one by one have their lengths. -/
theorem sizes_eq {bs : List Burst} {sgl : List Sg} (hlen : bs.length = sgl.length)
    (h : ∀ (k : ℕ) (e : Sg), sgl[k]? = some e → ∃ b : Burst, bs[k]? = some b ∧ b.sz = e.length) :
    bs.map Burst.sz = sgl.map Sg.length := by
  apply List.ext_getElem?
  intro k
  rw [List.getElem?_map,List.getElem?_map]
  cases hk : sgl[k]? with
  | none =>
    have hle := List.getElem?_eq_none_iff.mp hk
    rw [List.getElem?_eq_none (by rw [hlen]; exact hle)]
    rfl
  | some e =>
    obtain ⟨b,hb,hsz⟩ := h k e hk
    rw [hb,Option.map_some,Option.map_some,hsz]

theorem Loop.Reads.entry {chip : Chip} {chan : Chan} {direction : XferDirection} {base : ℕ}
    {sgl : List Sg} {l : Loop} (h : l.Reads direction base sgl sgl.length)
    (ht : Typed chip chan direction sgl) {k : ℕ} {e : Sg} (hk : sgl[k]? = some e) :
    ∃ b, (bursts l.chunks)[k]? = some b ∧ b.sz = e.length ∧ b.hostAddr direction = e.address ∧
      b.deviceAddr direction = u64 (base + totalLength (sgl.take k)) := by
  have hlt : k < sgl.length := (List.getElem?_eq_some_iff.mp hk).1
  refine ⟨_,h.burst k e hlt hk,?_,sg_burst_host _ _ e,sg_burst_device _ _ e⟩
  rw [sg_burst_sz]
  exact u32_of_lt (ht.length e (List.mem_of_getElem? hk))

theorem deviceTransfer_translated {chip : Chip} {chan : Chan} {direction : XferDirection}
    {sgl : List Sg} (hll : 1 ≤ chan.llMax) (hne : 1 ≤ sgl.length)
    (ht : Typed chip chan direction sgl) {vd : ℕ} {d : Desc}
    (hd : deviceTransfer chip chan vd ⟨direction,.scatterGather sgl sgl.length⟩ = some d) :
    Translated chip chan direction sgl d := by
  have hbuilt := deviceTransfer_built hll hd
  have hrun : d = (Loop.run chip chan ⟨direction,.scatterGather sgl sgl.length⟩ vd
      sgl.length).finish := by
    have hcnt : (Xfer.scatterGather sgl sgl.length).cnt = sgl.length := u32_of_lt ht.count
    unfold deviceTransfer at hd
    split at hd <;> try contradiction
    split at hd <;> try contradiction
    split at hd <;> try contradiction
    rw [hcnt] at hd
    exact (Option.some.inj hd).symm
  have hreads := run_reads ht hll vd sgl.length sgl.length (Nat.le_refl _)
  have hloop := loop_run_built chip ⟨direction,.scatterGather sgl sgl.length⟩ vd sgl.length hll
    ht.count
  generalize Loop.run chip chan ⟨direction,.scatterGather sgl sgl.length⟩ vd sgl.length = l at *
  have hchunk : d.chunk = l.chunks := by rw [hrun]; rfl
  have hpacked := hloop.packed
  have hsome : bursts l.chunks ≠ [] := by
    rw [← List.length_pos_iff,hreads.length]
    exact hne
  have hnonempty := hloop.ne_nil hll hsome
  have hlast : l.chunk.burst ≠ [] :=
    hnonempty l.chunk (List.mem_append_right _ (List.mem_singleton_self _))
  have hboxes : d.chunk.map Chunk.burst = l.desc.chunk.map Chunk.burst ++ [l.chunk.burst] := by
    rw [hchunk,Loop.chunks,List.map_append]
    rfl
  refine ⟨?_,?_,?_,?_,?_,fun c hc => (hbuilt.exact c hc).alloc,hbuilt.fresh.alloc_eq,
    fun c hc => (hbuilt.exact c hc).size,?_,hbuilt.cb⟩
  · rw [hchunk]
    exact hreads.length
  · intro k e hk
    rw [hchunk]
    exact hreads.entry ht hk
  · intro c hc
    rw [hchunk,Loop.chunks,List.dropLast_concat] at hc
    exact hpacked.filled _ (List.mem_map_of_mem hc)
  · intro c hc
    refine ⟨?_,hbuilt.room c hc⟩
    rw [hchunk] at hc
    exact List.length_pos_iff.mpr (hnonempty c hc)
  · have hcount := hpacked.count hll hlast
    rw [← hboxes,List.length_map] at hcount
    rw [hcount]
    have hlen := hreads.length
    rw [← hchunk,bursts] at hlen
    rw [hlen]
  · have hlen : (bursts d.chunk).length = sgl.length := by
      rw [hchunk]
      exact hreads.length
    have hsz : (bursts d.chunk).map Burst.sz = sgl.map Sg.length := by
      apply sizes_eq hlen
      intro k e hk
      obtain ⟨b,hb,hsz,_⟩ := hreads.entry ht hk
      exact ⟨b,by rw [hchunk]; exact hb,hsz⟩
    rw [hbuilt.total,totalSz_eq hbuilt.exact,hsz]
    rfl

theorem Translated.sizes {chip : Chip} {chan : Chan} {direction : XferDirection} {sgl : List Sg}
    {d : Desc} (h : Translated chip chan direction sgl d) :
    (bursts d.chunk).map Burst.sz = sgl.map Sg.length := by
  apply sizes_eq h.length
  intro k e hk
  obtain ⟨b,hb,hsz,_⟩ := h.burst k e hk
  exact ⟨b,hb,hsz⟩

/-- A request for a scatterlist is translated entry by entry. -/
theorem scatterGather_translated {chip : Chip} {chan : Chan} {direction : XferDirection}
    {sgl : List Sg} (hll : 1 ≤ chan.llMax) (hconf : chan.configured = true)
    (hdir : directionOk chip chan.dir direction = true) (hne : 1 ≤ sgl.length)
    (ht : Typed chip chan direction sgl) (vd : ℕ) : ∃ d,
      deviceTransfer chip chan vd ⟨direction,.scatterGather sgl sgl.length⟩ = some d ∧
      Translated chip chan direction sgl d := by
  obtain ⟨d,hd⟩ : ∃ d, deviceTransfer chip chan vd ⟨direction,.scatterGather sgl sgl.length⟩ =
      some d := by
    simp [deviceTransfer,hconf,hdir,Xfer.valid,hne]
  exact ⟨d,hd,deviceTransfer_translated hll hne ht hd⟩

/-- Three entries in chunks of two. -/
theorem threeEntries_translated : ∃ d, deviceTransfer plainChip
      ⟨0,.write,2,.none,.idle,true,⟨100,0⟩,[],[],[]⟩ 0
      ⟨.devToMem,.scatterGather [⟨4096,8⟩,⟨8192,16⟩,⟨12288,4⟩] 3⟩ = some d ∧
    Translated plainChip ⟨0,.write,2,.none,.idle,true,⟨100,0⟩,[],[],[]⟩ .devToMem
      [⟨4096,8⟩,⟨8192,16⟩,⟨12288,4⟩] d :=
  scatterGather_translated (by decide) rfl rfl (by decide)
    ⟨by decide,by decide,by decide⟩ 0

end AkidaEdma.DwEdma
