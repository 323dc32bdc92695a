import AkidaEdma.Engine.DescOwned
import AkidaEdma.Engine.Run

/-! # The balance of the descriptor memory

`dw_edma_device_transfer`, `dw_edma_start_transfer` and `dw_edma_free_desc` on the heap: what the
first allocates is freed once, whatever calls of `kzalloc` fail, and what it builds is what the
model without a heap says.
-/
namespace AkidaEdma.DescMemory
open DwEdma ListHead

/-- The counters of a descriptor and of its chunks are the numbers of elements of their lists. -/
def Heap.Counted (h : Heap) (desc : ℕ) : Prop :=
  ∃ d head hv cs, h.descs desc = some d ∧ d.chunk = some head ∧ Circle h.chunks head hv cs ∧
    d.chunksAlloc = cs.length ∧ ∀ c ∈ cs, ∃ head hb bs, c.2.burst = some head ∧
      Circle h.bursts head hb bs ∧ c.2.burstsAlloc = bs.length

/-- `n` times `dw_edma_start_transfer`. -/
def starts (c : MemChan) : ℕ → Heap → Option Heap
  | 0, h => some h
  | n+1, h => (startTransfer c h).bind fun r => starts c n r.1

/-- The heap, the descriptor and the state of the loop before iteration `n`, if it gets there. -/
def reach (os : ℕ → Bool) (chip : Chip) (c : MemChan) (x : Transfer) (h : Heap) (n : ℕ) :
    Option (Heap × ℕ × Filling) :=
  (allocDesc os chip c.chan h).bind fun r => r.2.bind fun desc =>
  (allocChunk os chip c.chan r.1 desc).bind fun r => r.2.bind fun chunk =>
  (run os chip c.chan x desc r.1 ⟨chunk,Cursor.start chip c.chan x⟩ n).bind fun r =>
  r.2.map fun s => (r.1,desc,s)

section
variable {g h : Heap} {t : DescTree}

theorem Over.counted (ht : Over g h t) : h.Counted t.id := by
  refine ⟨t.obj,t.head,t.headObj,t.nodes,ht.desc,rfl,ht.list,?_,?_⟩
  · simp [DescTree.obj,DescTree.nodes,nodesOf]
  · intro c hc
    obtain ⟨k,hk,rfl⟩ := List.mem_map.mp hc
    obtain ⟨hb,hcircle⟩ := ht.lists k hk
    exact ⟨k.head,hb,k.bursts,rfl,hcircle,rfl⟩

/-! ## Starting -/

theorem readChunk_first {c : ChunkTree} {cs : List ChunkTree} (ht : Over g h t)
    (hc : t.chunks = c :: cs) : readChunk h c.id = some c.chunk := by
  have hcmem : c ∈ t.chunks := by rw [hc]; exact List.mem_cons_self
  obtain ⟨hb,hcircle⟩ := ht.lists c hcmem
  have hlist := ht.list
  rw [DescTree.nodes,hc] at hlist
  have hnode : h.chunks c.id = some ⟨first (nodesOf cs) t.head,t.head,c.obj⟩ :=
    hlist.node []
  have hlen : c.bursts.length ≤ h.calls := by
    have hnodup := (List.nodup_cons.mp hcircle.nodup).2
    have hle := length_le_of_nodup hnodup fun a ha =>
      ht.burst_lt a (mem_burstIds hcmem (List.mem_cons_of_mem _ ha))
    rwa [List.length_map] at hle
  rw [readChunk,hnode,Option.bind_some]
  simp only [ChunkTree.obj,Option.bind_some,hcircle.head_eq,hcircle.values hlen,Option.map_some]
  rfl

theorem startTransfer_none {c : MemChan} (ht : Over g h t) (hc : c.descIssued.head? = some t.id)
    (hnil : t.chunks = []) : startTransfer c h = some (h,none) := by
  obtain ⟨ds,hds⟩ := List.head?_eq_some_iff.mp hc
  have hhead := ht.list.head_eq
  rw [DescTree.nodes,hnil] at hhead
  rw [startTransfer,hds]
  simp only [ht.desc,Option.bind_some,DescTree.obj,hhead]
  exact if_pos rfl

theorem startTransfer_some {c : MemChan} (ht : Over g h t) (hc : c.descIssued.head? = some t.id)
    {k : ChunkTree} {ks : List ChunkTree} (hk : t.chunks = k :: ks) :
    ∃ h', startTransfer c h = some (h',some ⟨t.id,k.chunk,t.xferSz == 0⟩) ∧
      Over g h' { t with chunks := ks, xferSz := u32 (t.xferSz + k.llRegion.sz) } := by
  obtain ⟨ds,hds⟩ := List.head?_eq_some_iff.mp hc
  have hhead := ht.list.head_eq
  have hnodup := ht.list.nodup
  rw [DescTree.nodes,hk] at hhead hnodup
  have hne : ¬ (k.id = t.head) := by
    intro he
    rw [nodesOf,List.map_cons,List.map_cons,he] at hnodup
    exact (List.nodup_cons.mp hnodup).1 List.mem_cons_self
  obtain ⟨h₁,h₁e,h₁t⟩ := ht.set_desc
    (f := fun d => { d with xferSz := u32 (d.xferSz + k.chunk.llRegion.sz) })
    (a := t.allocSz) (x := u32 (t.xferSz + k.llRegion.sz)) rfl
  obtain ⟨h₂,h₂e,h₂t,_⟩ := dropChunk_first h₁t hk
  refine ⟨h₂,?_,h₂t⟩
  rw [startTransfer,hds]
  simp only [ht.desc,Option.bind_some,DescTree.obj,hhead]
  rw [if_neg (show ¬ first (nodesOf (k :: ks)) t.head = t.head from hne)]
  change (readChunk h k.id).bind _ = _
  rw [readChunk_first ht hk,Option.bind_some,h₁e,Option.bind_some]
  change (dropChunk t.id h₁ k.id).map _ = _
  rw [show dropChunk t.id h₁ k.id = some h₂ from h₂e]
  rfl

theorem starts_over {c : MemChan} (ht : Over g h t) (hc : c.descIssued.head? = some t.id) (n : ℕ) :
    ∃ h' t', starts c n h = some h' ∧ Over g h' t' ∧ t'.id = t.id := by
  induction n generalizing h t with
  | zero => exact ⟨h,t,rfl,ht,rfl⟩
  | succ n ih =>
    cases hk : t.chunks with
    | nil =>
      obtain ⟨h',t',he,ht',hid⟩ := ih ht hc
      exact ⟨h',t',by rw [starts,startTransfer_none ht hc hk]; exact he,ht',hid⟩
    | cons k ks =>
      obtain ⟨h₁,h₁e,h₁t⟩ := startTransfer_some ht hc hk
      obtain ⟨h',t',he,ht',hid⟩ := ih h₁t hc
      exact ⟨h',t',by rw [starts,h₁e]; exact he,ht',hid⟩

end

/-! ## The loop -/

section
variable (os : ℕ → Bool) (chip : Chip) (chan : Chan) {g h : Heap} {t : DescTree}

/-- The loop on the heap is where the loop without it is. -/
structure Filled (g h : Heap) (desc : ℕ) (s : Filling) (l : Loop) (t : DescTree) : Prop where
  owned : Over g h t
  id : t.id = desc
  last : ∃ cs c, t.chunks = cs ++ [c] ∧ c.id = s.chunk ∧ cs.map ChunkTree.chunk = l.desc.chunk ∧
    c.chunk = l.chunk
  alloc : l.desc.chunksAlloc = t.chunks.length
  allocSz : t.allocSz = l.desc.allocSz
  xferSz : t.xferSz = 0
  cur : s.cur = l.cursor

theorem room_filled {desc : ℕ} {s : Filling} {l : Loop} (hg : g.Fresh) (hf : Filled g h desc s l t)
    (hfew : t.chunks.length + 1 < 4294967296) :
    ∃ h' r, room os chip chan desc h s.chunk = some (h',r) ∧ (r = none ∧ Over g h' t ∨
      ∃ k t', r = some k ∧ Filled g h' desc ⟨k,s.cur⟩ (l.room chip chan) t') := by
  obtain ⟨ht,rfl,⟨cs,c,hc,hid,hcs,hcl⟩,halloc,hsz,hxfer,hcur⟩ := hf
  have hlist := ht.list
  rw [DescTree.nodes,hc,nodesOf_append] at hlist
  have hcount : c.obj.burstsAlloc = l.chunk.burstsAlloc := by
    rw [← hcl]
    rfl
  have hroom : room os chip chan t.id h s.chunk =
      if l.chunk.burstsAlloc = chan.llMax then allocChunk os chip chan h t.id
      else some (h,some s.chunk) := by
    rw [room,← hid,hlist.node _,Option.bind_some,hcount]
  by_cases hfull : l.chunk.burstsAlloc = chan.llMax
  · rw [hroom,if_pos hfull]
    obtain ⟨h',r,he,⟨rfl,ht'⟩ | ⟨k,b,rfl,ht'⟩⟩ :=
      allocChunk_last os chip chan hg ht hfew
    · exact ⟨h',none,he,Or.inl ⟨rfl,ht'⟩⟩
    · refine ⟨h',some k,he,Or.inr ⟨k,_,rfl,ht',rfl,⟨t.chunks,_,rfl,rfl,?_,?_⟩,?_,?_,hxfer,?_⟩⟩
      · rw [Loop.room,if_pos hfull,hc,List.map_append,hcs,List.map_singleton,hcl]
      · rw [Loop.room,if_pos hfull,halloc]
        rfl
      · rw [Loop.room,if_pos hfull]
        dsimp only
        rw [halloc,u32_of_lt hfew,List.length_append,List.length_singleton]
      · rw [Loop.room,if_pos hfull]
        exact hsz
      · rw [room_cursor]
        exact hcur
  · rw [hroom,if_neg hfull]
    have hsame : l.room chip chan = l := if_neg hfull
    rw [hsame]
    exact ⟨h,some s.chunk,rfl,Or.inr ⟨s.chunk,t,rfl,ht,rfl,⟨cs,c,hc,hid,hcs,hcl⟩,halloc,hsz,hxfer,hcur⟩⟩

theorem addBurst_filled {desc : ℕ} {s : Filling} {l : Loop} (hg : g.Fresh)
    (hf : Filled g h desc s l t) (hfew : l.chunk.burst.length + 1 < 4294967296) (b : Burst) :
    ∃ h' r, addBurst os desc b h s.chunk = some (h',r) ∧ (r = none ∧ Over g h' t ∨
      ∃ k t', r = some k ∧ Filled g h' desc s (l.add b) t') := by
  obtain ⟨ht,rfl,⟨cs,c,hc,hid,hcs,hcl⟩,halloc,hsz,hxfer,hcur⟩ := hf
  have hlen : c.bursts.length = l.chunk.burst.length := by
    rw [← hcl]
    exact (List.length_map _).symm
  obtain ⟨h',r,he,⟨rfl,ht'⟩ | ⟨k,rfl,ht'⟩⟩ :=
    addBurst_last os hg ht hc (by omega) b
  · rw [hid] at he
    exact ⟨h',none,he,Or.inl ⟨rfl,ht'⟩⟩
  · rw [hid] at he
    refine ⟨h',some k,he,Or.inr ⟨k,_,rfl,ht',rfl,⟨cs,_,rfl,hid,hcs,?_⟩,?_,?_,hxfer,hcur⟩⟩
    · have hcount : l.chunk.burstsAlloc = c.bursts.length := by
        rw [← hcl]
        rfl
      simp only [Loop.add,ChunkTree.chunk,ChunkTree.add,List.map_append,List.length_append,
        List.length_singleton,List.map_cons,List.map_nil,hcount]
      rw [u32_of_lt (show c.bursts.length + 1 < 4294967296 by omega),← hcl]
      rfl
    · rw [Loop.add]
      dsimp only
      rw [halloc,hc,List.length_append,List.length_append]
      rfl
    · rw [Loop.add]
      dsimp only
      rw [hsz]

theorem Filled.seek {desc : ℕ} {s : Filling} {l : Loop} (hf : Filled g h desc s l t) (c : Cursor) :
    Filled g h desc ⟨s.chunk,c⟩ (l.seek c) t :=
  ⟨hf.owned,hf.id,hf.last,hf.alloc,hf.allocSz,hf.xferSz,rfl⟩

theorem body_filled {x : Transfer} {desc i : ℕ} {s : Filling} {l : Loop} (hg : g.Fresh)
    (hf : Filled g h desc s l t) (hfew : t.chunks.length + 1 < 4294967296)
    (hbursts : l.chunk.burst.length + 1 < 4294967296) :
    ∃ h' r, body os chip chan x desc h s i = some (h',r) ∧
      (r = none ∧ (∃ t', Over g h' t' ∧ t'.id = desc) ∨
        ∃ s' t', r = some s' ∧ Filled g h' desc s' (l.body chip chan x i) t') := by
  by_cases hend : s.cur.ended x = true
  · refine ⟨h,some s,if_pos hend,Or.inr ⟨s,t,rfl,?_⟩⟩
    rw [loop_body_cursor,← hf.cur,if_pos hend]
    exact hf
  rw [loop_body_cursor,← hf.cur,if_neg hend]
  obtain ⟨h₁,r,h₁e,⟨rfl,h₁t⟩ | ⟨k,t₁,rfl,h₁f⟩⟩ :=
    room_filled os chip chan hg hf hfew
  · refine ⟨h₁,none,?_,Or.inl ⟨rfl,t,h₁t,hf.id⟩⟩
    rw [body,if_neg hend,h₁e,Option.bind_some]
  have hroom : (l.room chip chan).chunk.burst.length + 1 < 4294967296 := by
    rw [Loop.room]
    split
    · exact (by decide : 0 + 1 < 4294967296)
    · exact hbursts
  obtain ⟨h₂,r,h₂e,⟨rfl,h₂t⟩ | ⟨b,t₂,rfl,h₂f⟩⟩ :=
    addBurst_filled os hg h₁f hroom (s.cur.burst x i)
  · refine ⟨h₂,none,?_,Or.inl ⟨rfl,t₁,h₂t,h₁f.id⟩⟩
    rw [body,if_neg hend,h₁e,Option.bind_some]
    dsimp only
    rw [h₂e]
    rfl
  · refine ⟨h₂,some ⟨k,s.cur.next x i⟩,?_,Or.inr ⟨_,t₂,rfl,h₂f.seek _⟩⟩
    rw [body,if_neg hend,h₁e,Option.bind_some]
    dsimp only
    rw [h₂e]
    rfl

theorem burst_length_le (x : Transfer) (vd n : ℕ) :
    (Loop.run chip chan x vd n).chunk.burst.length ≤ n := by
  induction n with
  | zero => exact Nat.le_refl 0
  | succ n ih =>
    rw [loop_run_succ]
    rcases loop_body_cases chip chan x (Loop.run chip chan x vd n) n with he | ⟨b,_,hc⟩
    · rw [he]
      exact Nat.le_succ_of_le ih
    · rw [hc,Loop.add]
      dsimp only
      rw [List.length_append,List.length_singleton]
      have hroom : ((Loop.run chip chan x vd n).room chip chan).chunk.burst.length ≤ n := by
        rw [Loop.room]
        split
        · exact Nat.zero_le n
        · exact ih
      omega

/-- The loop on the heap does what the loop without it does, or comes to a `NULL` with the
descriptor in order. -/
theorem run_filled {x : Transfer} {desc : ℕ} {s : Filling} (hg : g.Fresh)
    (hf : Filled g h desc s (Loop.start chip chan desc x) t) {n : ℕ} (hn : n < 4294967296) :
    ∃ h' r, run os chip chan x desc h s n = some (h',r) ∧
      (r = none ∧ (∃ t', Over g h' t' ∧ t'.id = desc) ∨
        ∃ s' t', r = some s' ∧ Filled g h' desc s' (Loop.run chip chan x desc n) t') := by
  induction n with
  | zero => exact ⟨h,some s,rfl,Or.inr ⟨s,t,rfl,hf⟩⟩
  | succ n ih =>
    obtain ⟨h₁,r,h₁e,⟨rfl,t₁,h₁t,hid⟩ | ⟨s₁,t₁,rfl,h₁f⟩⟩ := ih (by omega)
    · exact ⟨h₁,none,by rw [run,h₁e]; rfl,Or.inl ⟨rfl,t₁,h₁t,hid⟩⟩
    · have hshape := loop_run_shape chip chan x desc n (by omega)
      have hlen : t₁.chunks.length = (Loop.run chip chan x desc n).desc.chunk.length + 1 := by
        rw [← h₁f.alloc]
        exact hshape.alloc_eq
      have hle := hshape.length_le
      have hbursts := burst_length_le chip chan x desc n
      obtain ⟨h₂,r,h₂e,h₂c⟩ := body_filled (x := x) (i := n) os chip chan hg h₁f (by omega) (by omega)
      rw [loop_run_succ]
      exact ⟨h₂,r,by rw [run,h₁e]; exact h₂e,h₂c⟩

theorem first_filled (x : Transfer) (hg : g.Fresh) :
    ∃ h' r, allocDesc os chip chan g = some (h',r) ∧
      (r = none ∧ g.Same h' ∨ ∃ desc, r = some desc ∧
        ∃ h'' r', allocChunk os chip chan h' desc = some (h'',r') ∧
          (r' = none ∧ (∃ t, Over g h'' t ∧ t.id = desc) ∨ ∃ k t, r' = some k ∧
            Filled g h'' desc ⟨k,Cursor.start chip chan x⟩ (Loop.start chip chan desc x) t)) := by
  obtain ⟨h₁,r,h₁e,⟨rfl,hsame⟩ | ⟨t,rfl,ht,hnil,hsz,hxfer⟩⟩ :=
    allocDesc_cases os chip chan hg
  · exact ⟨h₁,none,h₁e,Or.inl ⟨rfl,hsame⟩⟩
  have hlen : t.chunks.length = 0 := by rw [hnil]; rfl
  obtain ⟨h₂,r,h₂e,h₂c⟩ :=
    allocChunk_last os chip chan hg ht (by omega)
  refine ⟨h₁,some t.id,h₁e,Or.inr ⟨t.id,rfl,h₂,r,h₂e,?_⟩⟩
  rcases h₂c with ⟨rfl,ht'⟩ | ⟨k,b,rfl,ht'⟩
  · exact Or.inl ⟨rfl,t,ht',rfl⟩
  · refine Or.inr ⟨k,_,rfl,ht',rfl,⟨[],_,by rw [hnil],rfl,rfl,rfl⟩,?_,hsz,hxfer,rfl⟩
    · dsimp only
      rw [hnil]
      rfl

end

/-! ## The transfer -/

section
variable (os : ℕ → Bool) (chip : Chip) (c : MemChan) (x : Transfer) {h : Heap}

/-- The result of `dw_edma_device_transfer`: `NULL` with nothing changed, or a descriptor in the
channel, the one of the model without a heap. -/
theorem deviceTransfer_cases (hh : h.Fresh) :
    ∃ h' c' r, deviceTransfer os chip c x h = some (h',c',r) ∧
      (r = none ∧ h.Same h' ∧ c' = c ∨ ∃ desc t, r = some desc ∧ Over h h' t ∧ t.id = desc ∧
        c' = { c with descAllocated := c.descAllocated ++ [desc] } ∧
        DwEdma.deviceTransfer chip c.chan desc x = some t.desc) := by
  by_cases hconf : (!c.configured) = true
  · exact ⟨h,c,none,if_pos hconf,Or.inl ⟨rfl,⟨rfl,rfl,rfl⟩,rfl⟩⟩
  by_cases hdir : (!directionOk chip c.dir x.direction) = true
  · exact ⟨h,c,none,by rw [deviceTransfer,if_neg hconf,if_pos hdir],Or.inl ⟨rfl,⟨rfl,rfl,rfl⟩,rfl⟩⟩
  by_cases hvalid : (!x.xfer.valid) = true
  · exact ⟨h,c,none,by rw [deviceTransfer,if_neg hconf,if_neg hdir,if_pos hvalid],
      Or.inl ⟨rfl,⟨rfl,rfl,rfl⟩,rfl⟩⟩
  have hmodel : ∀ desc, DwEdma.deviceTransfer chip c.chan desc x =
      some (Loop.run chip c.chan x desc x.xfer.cnt).finish := by
    intro desc
    rw [DwEdma.deviceTransfer,if_neg (show ¬ (!c.chan.configured) = true from hconf),
      if_neg (show ¬ (!directionOk chip c.chan.dir x.direction) = true from hdir),if_neg hvalid]
  obtain ⟨h₁,r,h₁e,⟨rfl,hsame⟩ | ⟨desc,rfl,h₂,r,h₂e,h₂c⟩⟩ :=
    first_filled os chip c.chan x hh
  · refine ⟨h₁,c,none,?_,Or.inl ⟨rfl,hsame,rfl⟩⟩
    rw [deviceTransfer,if_neg hconf,if_neg hdir,if_neg hvalid,h₁e,Option.bind_some]
  rcases h₂c with ⟨rfl,t,ht,hid⟩ | ⟨k,t,rfl,hf⟩
  · obtain ⟨h₃,h₃e,hsame,_⟩ := freeDesc_frees ht
    rw [hid] at h₃e
    refine ⟨h₃,c,none,?_,Or.inl ⟨rfl,hsame,rfl⟩⟩
    rw [deviceTransfer,if_neg hconf,if_neg hdir,if_neg hvalid,h₁e,Option.bind_some]
    dsimp only
    rw [h₂e,Option.bind_some]
    dsimp only
    rw [h₃e,Option.map_some]
  obtain ⟨h₃,r,h₃e,⟨rfl,t',ht',hid⟩ | ⟨s',t',rfl,hf'⟩⟩ :=
    run_filled os chip c.chan hh hf (xfer_cnt_lt x.xfer)
  · obtain ⟨h₄,h₄e,hsame,_⟩ := freeDesc_frees ht'
    rw [hid] at h₄e
    refine ⟨h₄,c,none,?_,Or.inl ⟨rfl,hsame,rfl⟩⟩
    rw [deviceTransfer,if_neg hconf,if_neg hdir,if_neg hvalid,h₁e,Option.bind_some]
    dsimp only
    rw [h₂e,Option.bind_some]
    dsimp only
    rw [h₃e,Option.bind_some]
    dsimp only
    rw [h₄e,Option.map_some]
  · refine ⟨h₃,_,some desc,?_,Or.inr ⟨desc,t',rfl,hf'.owned,hf'.id,rfl,?_⟩⟩
    · rw [deviceTransfer,if_neg hconf,if_neg hdir,if_neg hvalid,h₁e,Option.bind_some]
      dsimp only
      rw [h₂e,Option.bind_some]
      dsimp only
      rw [h₃e,Option.bind_some]
    · obtain ⟨hover,hid,⟨cs,k',hc,_,hcs,hcl⟩,halloc,hsz,hxfer,_⟩ := hf'
      have hshape := loop_run_shape chip c.chan x desc x.xfer.cnt (xfer_cnt_lt x.xfer)
      have hchunks : t'.chunks.map ChunkTree.chunk =
          (Loop.run chip c.chan x desc x.xfer.cnt).finish.chunk := by
        rw [hc,List.map_append,hcs,List.map_singleton,hcl]
        rfl
      have hfinish : (Loop.run chip c.chan x desc x.xfer.cnt).finish =
          ⟨(Loop.run chip c.chan x desc x.xfer.cnt).desc.vd,
            (Loop.run chip c.chan x desc x.xfer.cnt).finish.chunk,
            (Loop.run chip c.chan x desc x.xfer.cnt).desc.chunksAlloc,
            (Loop.run chip c.chan x desc x.xfer.cnt).desc.allocSz,
            (Loop.run chip c.chan x desc x.xfer.cnt).desc.xferSz⟩ := rfl
      rw [hmodel,hfinish,hshape.vd_eq,hshape.xfer_eq,DescTree.desc,hid,hchunks,← halloc,hsz,hxfer]

theorem reach_counted (hh : h.Fresh) {n : ℕ} (hn : n ≤ x.xfer.cnt) {h₁ : Heap} {desc : ℕ}
    {s : Filling} (hr : reach os chip c x h n = some (h₁,desc,s)) : h₁.Counted desc := by
  have hlt := xfer_cnt_lt x.xfer
  obtain ⟨a,r,ha,⟨rfl,_⟩ | ⟨d,rfl,b,r,hb,hc⟩⟩ :=
    first_filled os chip c.chan x hh
  · rw [reach,ha,Option.bind_some] at hr
    contradiction
  rcases hc with ⟨rfl,_⟩ | ⟨k,t,rfl,hf⟩
  · rw [reach,ha,Option.bind_some,Option.bind_some,hb,Option.bind_some] at hr
    contradiction
  obtain ⟨e,r,he,⟨rfl,_⟩ | ⟨s',t',rfl,hf'⟩⟩ := run_filled os chip c.chan hh hf (show n < 4294967296 by omega)
  · rw [reach,ha,Option.bind_some,Option.bind_some,hb,Option.bind_some,Option.bind_some,he,
      Option.bind_some] at hr
    contradiction
  · rw [reach,ha,Option.bind_some,Option.bind_some,hb,Option.bind_some,Option.bind_some,he,
      Option.bind_some] at hr
    cases hr
    rw [← hf'.id]
    exact hf'.owned.counted

end

/-- A descriptor that is returned is the one of the model without a heap. -/
theorem deviceTransfer_refines (os : ℕ → Bool) (chip : Chip) (c : MemChan) (x : Transfer) {h h' : Heap}
    (hh : h.Fresh) {c' : MemChan} {desc : ℕ}
    (hd : deviceTransfer os chip c x h = some (h',c',some desc)) :
    c' = { c with descAllocated := c.descAllocated ++ [desc] } ∧
      ∃ t, Over h h' t ∧ DwEdma.deviceTransfer chip c.chan desc x = some t.desc := by
  obtain ⟨_,_,_,he,hcases⟩ := deviceTransfer_cases os chip c x hh
  rw [hd] at he
  cases he
  rcases hcases with ⟨hnone,_,_⟩ | ⟨_,t,hsome,ht,_,hc,hmodel⟩
  · contradiction
  · cases hsome
    exact ⟨hc,t,ht,hmodel⟩

/-- Nothing faults. `NULL` leaves the heap and the channel as they were; a descriptor can be
started any number of times and freed, and then the heap is as it was. The counters are right
throughout. -/
theorem descMemory_balanced (os : ℕ → Bool) (chip : Chip) (c : MemChan) (x : Transfer) {h : Heap}
    (hh : h.Fresh) : ∃ h' c' r, deviceTransfer os chip c x h = some (h',c',r) ∧
      (r = none → h.Same h' ∧ c' = c) ∧
      (∀ n ≤ x.xfer.cnt, ∀ h₁ desc s, reach os chip c x h n = some (h₁,desc,s) → h₁.Counted desc) ∧
      ∀ desc, r = some desc → h'.Counted desc ∧
        ∀ n (k : MemChan), k.descIssued.head? = some desc → ∃ h₁ h₂, starts k n h' = some h₁ ∧
          h₁.Counted desc ∧ freeDesc h₁ desc = some h₂ ∧ h.Same h₂ := by
  obtain ⟨h',c',r,he,hcases⟩ := deviceTransfer_cases os chip c x hh
  refine ⟨h',c',r,he,?_,fun n hn h₁ desc s hr => reach_counted os chip c x hh hn hr,?_⟩
  · rintro rfl
    rcases hcases with ⟨_,hsame,hc⟩ | ⟨_,_,hsome,_⟩
    · exact ⟨hsame,hc⟩
    · contradiction
  · rintro desc rfl
    rcases hcases with ⟨hnone,_⟩ | ⟨_,t,hsome,ht,rfl,_⟩
    · contradiction
    cases hsome
    refine ⟨ht.counted,fun n k hk => ?_⟩
    obtain ⟨h₁,t',hs,ht',hid⟩ := starts_over ht hk n
    obtain ⟨h₂,hf,hsame,_⟩ := freeDesc_frees ht'
    rw [hid] at hf
    exact ⟨h₁,h₂,hs,by rw [← hid]; exact ht'.counted,hf,hsame⟩

def emptyHeap : Heap := ⟨0,fun _ => none,fun _ => none,fun _ => none⟩

/-- A configured write channel whose chunks take one burst. -/
def memChan : MemChan := ⟨0,.write,1,.none,.idle,true,⟨0,0⟩,[],[],[],[]⟩

def threeEntries : Transfer :=
  ⟨.devToMem,.scatterGather [⟨4096,4⟩,⟨8192,4⟩,⟨12288,4⟩] 3⟩

/-- The head of the third chunk's bursts fails, after two full chunks; and, with no failure, two
of the three chunks are started before the descriptor is freed. -/
theorem tenthCall_undone :
    (∃ h' c', deviceTransfer (fun n => n != 9) plainChip memChan threeEntries emptyHeap =
      some (h',c',none) ∧ emptyHeap.Same h' ∧ c' = memChan) ∧
    ∃ h' c' desc h₁ h₂, deviceTransfer (fun _ => true) plainChip memChan threeEntries emptyHeap =
        some (h',c',some desc) ∧
      starts { memChan with descIssued := [desc] } 2 h' = some h₁ ∧ h₁.Counted desc ∧
      freeDesc h₁ desc = some h₂ ∧ emptyHeap.Same h₂ := by
  have hfresh : emptyHeap.Fresh := ⟨fun _ _ => rfl,fun _ _ => rfl,fun _ _ => rfl⟩
  constructor
  · obtain ⟨h',c',r,he,hnone,_,_⟩ := descMemory_balanced (fun n => n != 9) plainChip memChan
      threeEntries hfresh
    have hr : r = none := by
      have hval : (deviceTransfer (fun n => n != 9) plainChip memChan threeEntries emptyHeap).map
          (·.2.2) = some none := by decide +kernel
      rw [he] at hval
      exact Option.some.inj hval
    subst hr
    exact ⟨h',c',he,hnone rfl⟩
  · obtain ⟨h',c',r,he,_,_,hsome⟩ := descMemory_balanced (fun _ => true) plainChip memChan
      threeEntries hfresh
    have hr : r.isSome = true := by
      have hval : (deviceTransfer (fun _ => true) plainChip memChan threeEntries emptyHeap).map
          (·.2.2.isSome) = some true := by decide +kernel
      rw [he] at hval
      exact Option.some.inj hval
    obtain ⟨desc,rfl⟩ := Option.isSome_iff_exists.mp hr
    obtain ⟨h₁,h₂,hstarts,hcounted,hfree,hsame⟩ :=
      (hsome desc rfl).2 2 { memChan with descIssued := [desc] } rfl
    exact ⟨h',c',desc,h₁,h₂,he,hstarts,hcounted,hfree,hsame⟩

end AkidaEdma.DescMemory
