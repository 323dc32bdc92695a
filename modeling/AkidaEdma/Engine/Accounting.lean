import AkidaEdma.Engine.ScatterGather

/-! # The byte counters of a descriptor

The chunks of a descriptor are started one after the other. Two `u32` sums go along:
`alloc_sz`, made when it was built, and `xfer_sz`, which also tells the first chunk apart.
-/
namespace AkidaEdma.DwEdma
open Packing

/-- The channel after `k` calls of `dw_edma_start_transfer`. -/
def startTransfers : ℕ → Chan → Chan
  | 0, chan => chan
  | k+1, chan => (startTransfer (startTransfers k chan)).1

/-- The results of `dma_cookie_status` and of `dw_edma_device_tx_status`. -/
inductive TxStatus | complete | inProgress | paused
  deriving DecidableEq, Repr

/-- `dw_edma_device_tx_status` with a place for the residue; `cookieStatus` is what
`dma_cookie_status` returns for the descriptor `vd`. -/
def deviceTxStatus (cookieStatus : TxStatus) (vd : ℕ) (chan : Chan) : TxStatus × ℕ :=
  if cookieStatus = .complete then (.complete,0)
  else
    let ret := if cookieStatus = .inProgress ∧ chan.status = .pause then .paused else cookieStatus
    let residue := match chan.descIssued.find? fun d => d.vd == vd with
      | some desc => u32 (desc.allocSz + 4294967296 - desc.xferSz)
      | none => 0
    (ret,residue)

/-- The descriptor that is left when `k` chunks of `d` have been started. -/
structure Desc.Rest (d : Desc) (k : ℕ) (e : Desc) : Prop where
  vd : e.vd = d.vd
  chunk : e.chunk = d.chunk.drop k
  allocSz : e.allocSz = d.allocSz
  xferSz : e.xferSz = u32 (totalSz (d.chunk.take k))

theorem totalSz_take_succ {cs : List Chunk} {k : ℕ} {c : Chunk} (h : cs[k]? = some c) :
    totalSz (cs.take (k+1)) = totalSz (cs.take k) + c.llRegion.sz := by
  simp [totalSz,List.take_add_one,h]

theorem totalSz_take_drop (cs : List Chunk) (k : ℕ) :
    totalSz (cs.take k) + totalSz (cs.drop k) = totalSz cs := by
  rw [← totalSz_append,List.take_append_drop]

/-- The difference of two sums, all of them `u32`. -/
theorem u32_sub {a b c : ℕ} (h : a + b = c) : u32 (u32 c + 4294967296 - u32 a) = u32 b := by
  subst h
  unfold u32
  omega

theorem Desc.Rest.start {d e : Desc} {k : ℕ} (h : d.Rest k e) {rest : List Desc} {chan : Chan}
    (hissued : chan.descIssued = e :: rest) {c : Chunk} (hc : d.chunk[k]? = some c) :
    ∃ e', (startTransfer chan).1.descIssued = e' :: rest ∧ d.Rest (k+1) e' ∧
      (startTransfer chan).2 = some ⟨d.vd,c,u32 (totalSz (d.chunk.take k)) == 0⟩ := by
  obtain ⟨hlt,hget⟩ := List.getElem?_eq_some_iff.mp hc
  have hchunk : e.chunk = c :: d.chunk.drop (k+1) := by
    rw [h.chunk,List.drop_eq_getElem_cons hlt,hget]
  have hstart := startTransfer_cons hissued hchunk
  rw [hstart]
  refine ⟨_,rfl,⟨h.vd,rfl,h.allocSz,?_⟩,by rw [h.vd,h.xferSz]⟩
  rw [totalSz_take_succ hc,Desc.consume,h.xferSz]
  simp only [u32,Nat.mod_add_mod]

theorem startTransfers_rest {d : Desc} (hfresh : d.xferSz = 0) {rest : List Desc} {chan : Chan}
    (hissued : chan.descIssued = d :: rest) : ∀ k, k ≤ d.chunk.length →
    ∃ e, (startTransfers k chan).descIssued = e :: rest ∧ d.Rest k e := by
  intro k
  induction k with
  | zero => exact fun _ => ⟨d,hissued,rfl,rfl,rfl,hfresh⟩
  | succ k ih =>
    intro hk
    obtain ⟨e,he,hrest⟩ := ih (by omega)
    obtain ⟨e',he',hrest',_⟩ := hrest.start he (List.getElem?_eq_getElem (by omega))
    exact ⟨e',he',hrest'⟩

/-- The start number `k` hands out chunk `k`, as the first one if no byte went before it. -/
theorem startTransfers_started {d : Desc} (hfresh : d.xferSz = 0) {rest : List Desc} {chan : Chan}
    (hissued : chan.descIssued = d :: rest) {k : ℕ} {c : Chunk} (hc : d.chunk[k]? = some c) :
    (startTransfer (startTransfers k chan)).2 =
      some ⟨d.vd,c,u32 (totalSz (d.chunk.take k)) == 0⟩ := by
  have hlt := (List.getElem?_eq_some_iff.mp hc).1
  obtain ⟨e,he,hrest⟩ := startTransfers_rest hfresh hissued k (by omega)
  exact (hrest.start he hc).choose_spec.2.2

/-- The residue, while the descriptor is the one in progress. -/
theorem residue_eq {d : Desc} (hfresh : d.xferSz = 0) (htotal : d.allocSz = u32 (totalSz d.chunk))
    {rest : List Desc} {chan : Chan} (hissued : chan.descIssued = d :: rest) {k : ℕ}
    (hk : k ≤ d.chunk.length) {cookieStatus : TxStatus} (hstatus : cookieStatus ≠ .complete) :
    (deviceTxStatus cookieStatus d.vd (startTransfers k chan)).2 =
      u32 (totalSz (d.chunk.drop k)) := by
  obtain ⟨e,he,hrest⟩ := startTransfers_rest hfresh hissued k hk
  have hfind : (startTransfers k chan).descIssued.find? (fun d' => d'.vd == d.vd) = some e := by
    rw [he,List.find?_cons_of_pos]
    rw [hrest.vd,beq_self_eq_true]
  have hsum := totalSz_take_drop d.chunk k
  rw [deviceTxStatus,if_neg hstatus]
  simp only [hfind,hrest.allocSz,hrest.xferSz,htotal]
  exact u32_sub hsum

/-- A descriptor that waits behind others reports all of its bytes. -/
theorem residue_queued {d : Desc} (hfresh : d.xferSz = 0)
    (htotal : d.allocSz = u32 (totalSz d.chunk)) {pre rest : List Desc} {chan : Chan}
    (hissued : chan.descIssued = pre ++ d :: rest) (hpre : ∀ e ∈ pre, e.vd ≠ d.vd)
    {cookieStatus : TxStatus} (hstatus : cookieStatus ≠ .complete) :
    (deviceTxStatus cookieStatus d.vd chan).2 = u32 (totalSz d.chunk) := by
  have hnone : pre.find? (fun d' => d'.vd == d.vd) = none := by
    rw [List.find?_eq_none]
    intro e he
    simpa using hpre e he
  have hfind : chan.descIssued.find? (fun d' => d'.vd == d.vd) = some d := by
    rw [hissued,List.find?_append,hnone,Option.none_or,List.find?_cons_of_pos]
    exact beq_self_eq_true d.vd
  rw [deviceTxStatus,if_neg hstatus]
  simp only [hfind,htotal,hfresh,u32,Nat.sub_zero,Nat.add_mod_right,Nat.mod_mod]

/-! ## Scatterlists -/

/-- Before a chunk go as many entries as the chunks before it have room for. -/
theorem totalSz_take_eq {chip : Chip} {chan : Chan} {direction : XferDirection} {sgl : List Sg}
    {d : Desc} (h : Translated chip chan direction sgl d) (hb : d.Built chip chan) {k : ℕ}
    (hk : k < d.chunk.length) :
    totalSz (d.chunk.take k) = totalLength (sgl.take (k * chan.llMax)) := by
  have hexact : ∀ c ∈ d.chunk.take k, c.Exact (chan.region chip) :=
    fun c hc => hb.exact c (List.mem_of_mem_take hc)
  have hfull : ∀ b ∈ (d.chunk.map Chunk.burst).take k, b.length = chan.llMax := by
    intro b hmem
    rw [← List.map_take] at hmem
    obtain ⟨c,hc,rfl⟩ := List.mem_map.mp hmem
    apply h.full
    rw [List.dropLast_eq_take]
    exact (List.take_prefix_take_left (by omega)).subset hc
  have hbursts : bursts (d.chunk.take k) = (bursts d.chunk).take (k * chan.llMax) := by
    rw [bursts,List.map_take]
    exact flatten_take_full (by rw [List.length_map]; omega) hfull
  rw [totalSz_eq hexact,hbursts,List.map_take,h.sizes,← List.map_take]
  rfl

theorem lt_chunks_iff {chip : Chip} {chan : Chan} {direction : XferDirection} {sgl : List Sg}
    {d : Desc} (h : Translated chip chan direction sgl d) (hll : 1 ≤ chan.llMax) (k : ℕ) :
    k < d.chunk.length ↔ k * chan.llMax < sgl.length := by
  rw [h.count,Nat.lt_iff_add_one_le,Nat.le_div_iff_mul_le (by omega),Nat.add_mul]
  omega

/-- What the counters are for: the first chunk is told from the later ones, and the residue is
the number of bytes that were not started. -/
structure Accounted (d : Desc) (rest : List Desc) (chan : Chan) : Prop where
  first : ∀ k c, d.chunk[k]? = some c → ∃ s, (startTransfer (startTransfers k chan)).2 = some s ∧
    s.vd = d.vd ∧ s.chunk = c ∧ (s.first = true ↔ k = 0)
  residue : ∀ k, k ≤ d.chunk.length → totalSz (d.chunk.drop k) < 4294967296 →
    ∀ cookieStatus, cookieStatus ≠ .complete →
      (deviceTxStatus cookieStatus d.vd (startTransfers k chan)).2 = totalSz (d.chunk.drop k)
  queued : ∀ (pre : List Desc) chan', chan'.descIssued = pre ++ d :: rest →
    (∀ e ∈ pre, e.vd ≠ d.vd) → totalSz d.chunk < 4294967296 →
    ∀ cookieStatus, cookieStatus ≠ .complete →
      (deviceTxStatus cookieStatus d.vd chan').2 = totalSz d.chunk

/-- The counters serve a descriptor of a scatterlist unless some chunk but the first begins
after a multiple of `2^32` bytes. -/
theorem accounted_iff {chip : Chip} {chan : Chan} {direction : XferDirection} {sgl : List Sg}
    (hll : 1 ≤ chan.llMax) (hne : 1 ≤ sgl.length) (ht : Typed chip chan direction sgl) {vd : ℕ}
    {d : Desc}
    (hd : deviceTransfer chip chan vd ⟨direction,.scatterGather sgl sgl.length⟩ = some d)
    {rest : List Desc} {chan' : Chan} (hissued : chan'.descIssued = d :: rest) :
    Accounted d rest chan' ↔ ∀ k, 1 ≤ k → k * chan.llMax < sgl.length →
      u32 (totalLength (sgl.take (k * chan.llMax))) ≠ 0 := by
  have htranslated := deviceTransfer_translated hll hne ht hd
  have hbuilt := deviceTransfer_built hll hd
  have hfresh := hbuilt.fresh.xfer_eq
  constructor
  · intro h k hk hlt hzero
    have hchunk := (lt_chunks_iff htranslated hll k).mpr hlt
    have hget := List.getElem?_eq_getElem hchunk
    obtain ⟨s,hs,_,_,hfirst⟩ := h.first k _ hget
    rw [startTransfers_started hfresh hissued hget] at hs
    cases hs
    have hz := hfirst.mp (by
      rw [beq_iff_eq,totalSz_take_eq htranslated hbuilt hchunk]
      exact hzero)
    omega
  · intro h
    refine ⟨?_,?_,?_⟩
    · intro k c hc
      have hlt := (List.getElem?_eq_some_iff.mp hc).1
      refine ⟨_,startTransfers_started hfresh hissued hc,rfl,rfl,?_⟩
      rw [beq_iff_eq,totalSz_take_eq htranslated hbuilt hlt]
      constructor
      · intro hzero
        by_contra hk
        exact h k (by omega) ((lt_chunks_iff htranslated hll k).mp hlt) hzero
      · rintro rfl
        rw [Nat.zero_mul]
        rfl
    · intro k hk hfits cookieStatus hstatus
      rw [residue_eq hfresh hbuilt.total hissued hk hstatus]
      exact u32_of_lt hfits
    · intro pre chan'' hpre hother hfits cookieStatus hstatus
      rw [residue_queued hfresh hbuilt.total hpre hother hstatus]
      exact u32_of_lt hfits

/-- A write channel with room for one element a chunk, and what it makes of two entries. -/
def oneRoom : Chan := ⟨0,.write,1,.none,.busy,true,⟨100,0⟩,[],[],[]⟩

def twoEntries (len : ℕ) : Desc :=
  ⟨0,[⟨[⟨100,4096,len⟩],1,true,⟨0,0,len⟩⟩,⟨[⟨100 + len,8192,8⟩],1,false,⟨0,0,8⟩⟩],2,len + 8,0⟩

theorem twoEntries_accounted :
    Accounted (twoEntries 16) [] { oneRoom with descIssued := [twoEntries 16] } := by
  refine (@accounted_iff plainChip oneRoom .devToMem [⟨4096,16⟩,⟨8192,8⟩] (by decide) (by decide)
    ⟨by decide,by decide,by decide⟩ 0 _ rfl _ _ rfl).mpr fun k hk hlt => ?_
  have hone : k = 1 := by
    have hroom : oneRoom.llMax = 1 := rfl
    rw [hroom] at hlt
    simp only [List.length_cons,List.length_nil] at hlt
    omega
  rw [hone]
  decide

/-- After an entry of no bytes the second chunk is started as the first one again. -/
theorem zeroEntry_restarted :
    deviceTransfer plainChip oneRoom 0 ⟨.devToMem,.scatterGather [⟨4096,0⟩,⟨8192,8⟩] 2⟩ =
      some (twoEntries 0) ∧
    (startTransfer (startTransfers 1 { oneRoom with descIssued := [twoEntries 0] })).2 =
      some ⟨0,⟨[⟨100,8192,8⟩],1,false,⟨0,0,8⟩⟩,true⟩ ∧
    ¬ Accounted (twoEntries 0) [] { oneRoom with descIssued := [twoEntries 0] } := by
  refine ⟨rfl,rfl,?_⟩
  intro h
  obtain ⟨s,hs,_,_,hfirst⟩ := h.first 1 _ rfl
  cases hs
  exact absurd (hfirst.mp rfl) (by decide)

end AkidaEdma.DwEdma
