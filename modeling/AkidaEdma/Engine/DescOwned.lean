import AkidaEdma.Engine.DescMemory

/-! # What a descriptor owns

The objects of a descriptor by name, with the values they hold, and what each function of the
source does to them. The rest of the heap stays as it was before the descriptor was allocated.
-/
namespace AkidaEdma.DescMemory
open DwEdma ListHead

/-- A chunk of a list, with the head and the elements of its bursts. -/
structure ChunkTree where
  id : ℕ
  head : ℕ
  bursts : List (ℕ × Burst)
  cb : Bool
  llRegion : Region

/-- A descriptor, with the head and the elements of its chunks. -/
structure DescTree where
  id : ℕ
  head : ℕ
  headObj : ChunkObj
  chunks : List ChunkTree
  allocSz : ℕ
  xferSz : ℕ

namespace ChunkTree
variable (c : ChunkTree)

/-- The object: its counter is the number of elements. -/
def obj : ChunkObj := ⟨some c.head,c.bursts.length,c.cb,c.llRegion⟩
def burstIds : List ℕ := c.head :: c.bursts.map Prod.fst

/-- The chunk that it represents. -/
def chunk : Chunk := ⟨c.bursts.map Prod.snd,c.bursts.length,c.cb,c.llRegion⟩

end ChunkTree

def nodesOf (cs : List ChunkTree) : List (ℕ × ChunkObj) := cs.map fun c => (c.id,c.obj)

theorem nodesOf_append (cs ds : List ChunkTree) : nodesOf (cs ++ ds) = nodesOf cs ++ nodesOf ds :=
  List.map_append

namespace DescTree
variable (t : DescTree)

def obj : DescObj := ⟨some t.head,t.chunks.length,t.allocSz,t.xferSz⟩
def nodes : List (ℕ × ChunkObj) := nodesOf t.chunks
def chunkIds : List ℕ := t.head :: t.nodes.map Prod.fst
def burstIds : List ℕ := t.chunks.flatMap ChunkTree.burstIds

/-- The descriptor that it represents. -/
def desc : Desc := ⟨t.id,t.chunks.map ChunkTree.chunk,t.chunks.length,t.allocSz,t.xferSz⟩

end DescTree

/-- No name from the next one on is in use. -/
structure Heap.Fresh (h : Heap) : Prop where
  descs : ∀ a, h.calls ≤ a → h.descs a = none
  chunks : ∀ a, h.calls ≤ a → h.chunks a = none
  bursts : ∀ a, h.calls ≤ a → h.bursts a = none

/-- The same objects are live, with the same contents. -/
structure Heap.Same (g h : Heap) : Prop where
  descs : h.descs = g.descs
  chunks : h.chunks = g.chunks
  bursts : h.bursts = g.bursts

/-- `h` is `g` and the objects of a descriptor. -/
structure Over (g h : Heap) (t : DescTree) : Prop where
  desc : h.descs t.id = some t.obj
  list : Circle h.chunks t.head t.headObj t.nodes
  lists : ∀ c ∈ t.chunks, ∃ hb, Circle h.bursts c.head hb c.bursts
  apart : t.burstIds.Nodup
  descs : Grown g.descs h.descs [t.id]
  chunks : Grown g.chunks h.chunks t.chunkIds
  bursts : Grown g.bursts h.bursts t.burstIds
  desc_lt : t.id < h.calls
  chunk_lt : ∀ a ∈ t.chunkIds, a < h.calls
  burst_lt : ∀ a ∈ t.burstIds, a < h.calls
  calls : g.calls ≤ h.calls
  few : t.chunks.length < 4294967296
  fewBursts : ∀ c ∈ t.chunks, c.bursts.length < 4294967296

section
variable {g h : Heap} {t : DescTree}

theorem Over.of_eq {h' : Heap} (ht : Over g h t) (hd : h'.descs = h.descs) (hc : h'.chunks = h.chunks)
    (hb : h'.bursts = h.bursts) (hcalls : h.calls ≤ h'.calls) : Over g h' t where
  desc := by rw [hd]; exact ht.desc
  list := by rw [hc]; exact ht.list
  lists := by rw [hb]; exact ht.lists
  apart := ht.apart
  descs := by rw [hd]; exact ht.descs
  chunks := by rw [hc]; exact ht.chunks
  bursts := by rw [hb]; exact ht.bursts
  desc_lt := Nat.lt_of_lt_of_le ht.desc_lt hcalls
  chunk_lt a ha := Nat.lt_of_lt_of_le (ht.chunk_lt a ha) hcalls
  burst_lt a ha := Nat.lt_of_lt_of_le (ht.burst_lt a ha) hcalls
  calls := Nat.le_trans ht.calls hcalls
  few := ht.few
  fewBursts := ht.fewBursts

theorem Over.fresh (hg : g.Fresh) (ht : Over g h t) : h.Fresh where
  descs a ha := by
    have hne : a ∉ [t.id] := by
      rw [List.mem_singleton]
      have hlt := ht.desc_lt
      omega
    rw [ht.descs.same a hne]
    exact hg.descs a (Nat.le_trans ht.calls ha)
  chunks a ha := by
    have hne : a ∉ t.chunkIds := fun hmem => Nat.not_lt.mpr ha (ht.chunk_lt a hmem)
    rw [ht.chunks.same a hne]
    exact hg.chunks a (Nat.le_trans ht.calls ha)
  bursts a ha := by
    have hne : a ∉ t.burstIds := fun hmem => Nat.not_lt.mpr ha (ht.burst_lt a hmem)
    rw [ht.bursts.same a hne]
    exact hg.bursts a (Nat.le_trans ht.calls ha)

/-- The names of the bursts of a chunk are those of no other. -/
theorem Over.bursts_apart {c : ChunkTree} {cs ds : List ChunkTree} (ht : Over g h t)
    (hc : t.chunks = cs ++ c :: ds) {d : ChunkTree} (hd : d ∈ cs ++ ds) {a : ℕ}
    (ha : a ∈ d.burstIds) : a ∉ c.burstIds := by
  intro hac
  have hapart := ht.apart
  rw [DescTree.burstIds,hc,List.flatMap_append,List.flatMap_cons] at hapart
  obtain ⟨_,hright,hdisj⟩ := List.nodup_append'.mp hapart
  rcases List.mem_append.mp hd with hd | hd
  · exact hdisj (List.mem_flatMap.mpr ⟨d,hd,ha⟩) (List.mem_append_left _ hac)
  · exact (List.nodup_append'.mp hright).2.2 hac (List.mem_flatMap.mpr ⟨d,hd,ha⟩)

theorem mem_burstIds {c : ChunkTree} (hc : c ∈ t.chunks) {a : ℕ} (ha : a ∈ c.burstIds) :
    a ∈ t.burstIds := List.mem_flatMap.mpr ⟨c,hc,ha⟩

theorem Over.lists_congr {h' : Heap} (ht : Over g h t) {c : ChunkTree} (hc : c ∈ t.chunks)
    (hb : ∀ a ∈ c.burstIds, h'.bursts a = h.bursts a) : ∃ hb, Circle h'.bursts c.head hb c.bursts := by
  obtain ⟨v,hv⟩ := ht.lists c hc
  exact ⟨v,hv.congr hb⟩

/-- The last chunk changes, and may get bursts more. -/
theorem Over.change_last {h' : Heap} {cs : List ChunkTree} {c d : ChunkTree} {more : List ℕ}
    (hg : g.Fresh) (ht : Over g h t) (hc : t.chunks = cs ++ [c]) (hid : d.id = c.id)
    (hids : d.burstIds = c.burstIds ++ more) (hmore : more.Nodup)
    (hnew : ∀ a ∈ more, h.calls ≤ a ∧ a < h'.calls)
    (hlist : Circle h'.chunks t.head t.headObj (nodesOf (cs ++ [d])))
    (hburst : ∃ hb, Circle h'.bursts d.head hb d.bursts) (hd : h'.descs = h.descs)
    (hchunks : ∀ a, a ≠ c.id → h'.chunks a = h.chunks a)
    (hbursts : ∀ a, a ∉ d.burstIds → h'.bursts a = h.bursts a) (hcalls : h.calls ≤ h'.calls)
    (hfew : d.bursts.length < 4294967296) : Over g h' { t with chunks := cs ++ [d] } := by
  have hlen : (cs ++ [d]).length = t.chunks.length := by simp [hc]
  have hchunkIds : DescTree.chunkIds { t with chunks := cs ++ [d] } = t.chunkIds := by
    simp [DescTree.chunkIds,DescTree.nodes,nodesOf,hc,hid]
  have hburstIds : DescTree.burstIds { t with chunks := cs ++ [d] } = t.burstIds ++ more := by
    simp [DescTree.burstIds,hc,hids]
  have hcmem : c ∈ t.chunks := by rw [hc]; exact List.mem_append_right _ (List.mem_singleton_self c)
  have hfresh : ∀ a ∈ more, a ∉ t.burstIds := by
    intro a ha hmem
    exact Nat.not_lt.mpr (hnew a ha).1 (ht.burst_lt a hmem)
  have hcid : c.id ∈ t.chunkIds := by
    simp [DescTree.chunkIds,DescTree.nodes,nodesOf,hc]
  refine ⟨?_,hlist,?_,?_,?_,?_,?_,?_,?_,?_,?_,?_,?_⟩
  · rw [hd,DescTree.obj]
    dsimp only
    rw [hlen]
    exact ht.desc
  · intro k hk
    rcases List.mem_append.mp hk with hk | hk
    · have hkmem : k ∈ t.chunks := by rw [hc]; exact List.mem_append_left _ hk
      refine ht.lists_congr hkmem fun a ha => hbursts a ?_
      rw [hids,List.mem_append,not_or]
      exact ⟨ht.bursts_apart hc (List.mem_append_left _ hk) ha,
        fun hmem => hfresh a hmem (mem_burstIds hkmem ha)⟩
    · rw [List.mem_singleton.mp hk]
      exact hburst
  · rw [hburstIds]
    exact ht.apart.append hmore fun a ha hmem => hfresh a hmem ha
  · rw [hd]
    exact ht.descs
  · rw [hchunkIds]
    refine ht.chunks.change fun a ha => hchunks a ?_
    rintro rfl
    exact ha hcid
  · rw [hburstIds]
    refine ht.bursts.more (fun a ha => hg.bursts a (Nat.le_trans ht.calls (hnew a ha).1))
      fun a ha => hbursts a ?_
    rw [hids,List.mem_append,not_or]
    rw [List.mem_append,not_or] at ha
    exact ⟨fun hmem => ha.1 (mem_burstIds hcmem hmem),ha.2⟩
  · exact Nat.lt_of_lt_of_le ht.desc_lt hcalls
  · rw [hchunkIds]
    exact fun a ha => Nat.lt_of_lt_of_le (ht.chunk_lt a ha) hcalls
  · rw [hburstIds]
    intro a ha
    rcases List.mem_append.mp ha with ha | ha
    · exact Nat.lt_of_lt_of_le (ht.burst_lt a ha) hcalls
    · exact (hnew a ha).2
  · exact Nat.le_trans ht.calls hcalls
  · dsimp only
    rw [hlen]
    exact ht.few
  · intro k hk
    rcases List.mem_append.mp hk with hk | hk
    · exact ht.fewBursts k (by rw [hc]; exact List.mem_append_left _ hk)
    · rw [List.mem_singleton.mp hk]
      exact hfew

theorem Over.add_last {h' : Heap} {d : ChunkTree} (hg : g.Fresh) (ht : Over g h t)
    (hid : h.calls ≤ d.id ∧ d.id < h'.calls) (hids : d.burstIds.Nodup)
    (hnew : ∀ a ∈ d.burstIds, h.calls ≤ a ∧ a < h'.calls)
    (hdesc : h'.descs t.id = some (DescTree.obj { t with chunks := t.chunks ++ [d] }))
    (hdescs : ∀ a, a ≠ t.id → h'.descs a = h.descs a)
    (hlist : Circle h'.chunks t.head t.headObj (nodesOf (t.chunks ++ [d])))
    (hburst : ∃ hb, Circle h'.bursts d.head hb d.bursts)
    (hchunks : ∀ a, a ∉ t.chunkIds ++ [d.id] → h'.chunks a = h.chunks a)
    (hbursts : ∀ a, a ∉ d.burstIds → h'.bursts a = h.bursts a)
    (hfew : t.chunks.length + 1 < 4294967296) (hfewBursts : d.bursts.length < 4294967296) :
    Over g h' { t with chunks := t.chunks ++ [d] } := by
  have hcalls : h.calls ≤ h'.calls := Nat.le_trans hid.1 (Nat.le_of_lt hid.2)
  have hchunkIds : DescTree.chunkIds { t with chunks := t.chunks ++ [d] } = t.chunkIds ++ [d.id] := by
    simp [DescTree.chunkIds,DescTree.nodes,nodesOf]
  have hburstIds : DescTree.burstIds { t with chunks := t.chunks ++ [d] } =
      t.burstIds ++ d.burstIds := by
    simp [DescTree.burstIds]
  have hfresh : ∀ a ∈ d.burstIds, a ∉ t.burstIds := by
    intro a ha hmem
    exact Nat.not_lt.mpr (hnew a ha).1 (ht.burst_lt a hmem)
  refine ⟨hdesc,hlist,?_,?_,?_,?_,?_,?_,?_,?_,?_,?_,?_⟩
  · intro k hk
    rcases List.mem_append.mp hk with hk | hk
    · exact ht.lists_congr hk fun a ha => hbursts a fun hmem => hfresh a hmem (mem_burstIds hk ha)
    · rw [List.mem_singleton.mp hk]
      exact hburst
  · rw [hburstIds]
    exact ht.apart.append hids fun a ha hmem => hfresh a hmem ha
  · exact ht.descs.change fun a ha => hdescs a (by simpa using ha)
  · rw [hchunkIds]
    refine ht.chunks.more (fun a ha => ?_) hchunks
    rw [List.mem_singleton.mp ha]
    exact hg.chunks _ (Nat.le_trans ht.calls hid.1)
  · rw [hburstIds]
    refine ht.bursts.more (fun a ha => hg.bursts a (Nat.le_trans ht.calls (hnew a ha).1))
      fun a ha => hbursts a fun hmem => ha (List.mem_append_right _ hmem)
  · exact Nat.lt_of_lt_of_le ht.desc_lt hcalls
  · rw [hchunkIds]
    intro a ha
    rcases List.mem_append.mp ha with ha | ha
    · exact Nat.lt_of_lt_of_le (ht.chunk_lt a ha) hcalls
    · rw [List.mem_singleton.mp ha]
      exact hid.2
  · rw [hburstIds]
    intro a ha
    rcases List.mem_append.mp ha with ha | ha
    · exact Nat.lt_of_lt_of_le (ht.burst_lt a ha) hcalls
    · exact (hnew a ha).2
  · exact Nat.le_trans ht.calls hcalls
  · simpa using hfew
  · intro k hk
    rcases List.mem_append.mp hk with hk | hk
    · exact ht.fewBursts k hk
    · rw [List.mem_singleton.mp hk]
      exact hfewBursts

theorem Over.drop_first {h' : Heap} {c : ChunkTree} {cs : List ChunkTree} (ht : Over g h t)
    (hc : t.chunks = c :: cs)
    (hdesc : h'.descs t.id = some (DescTree.obj { t with chunks := cs }))
    (hdescs : ∀ a, a ≠ t.id → h'.descs a = h.descs a)
    (hlist : Circle h'.chunks t.head t.headObj (nodesOf cs)) (hchunk : h'.chunks c.id = none)
    (hchunks : ∀ a, a ∉ t.chunkIds → h'.chunks a = h.chunks a)
    (hburst : ∀ a ∈ c.burstIds, h'.bursts a = none)
    (hbursts : ∀ a, a ∉ c.burstIds → h'.bursts a = h.bursts a) (hcalls : h'.calls = h.calls) :
    Over g h' { t with chunks := cs } := by
  have hchunkIds : ∀ a, a ∈ t.chunkIds ↔ a = c.id ∨ a ∈ DescTree.chunkIds { t with chunks := cs } := by
    intro a
    simp only [DescTree.chunkIds,DescTree.nodes,nodesOf,hc,List.map_cons,List.mem_cons]
    tauto
  have hburstIds : t.burstIds = c.burstIds ++ DescTree.burstIds { t with chunks := cs } := by
    simp [DescTree.burstIds,hc]
  have hapart : ∀ k ∈ cs, ∀ a ∈ k.burstIds, a ∉ c.burstIds := fun k hk a ha =>
    ht.bursts_apart (show t.chunks = [] ++ c :: cs from hc) hk ha
  refine ⟨hdesc,hlist,?_,?_,?_,?_,?_,?_,?_,?_,?_,?_,?_⟩
  · intro k hk
    exact ht.lists_congr (by rw [hc]; exact List.mem_cons_of_mem c hk) fun a ha =>
      hbursts a (hapart k hk a ha)
  · have hnodup := ht.apart
    rw [hburstIds] at hnodup
    exact hnodup.of_append_right
  · exact ht.descs.change fun a ha => hdescs a (by simpa using ha)
  · refine ht.chunks.fewer [c.id] (fun a ha => ?_)
      (fun a ha => (hchunkIds a).mpr (Or.inr ha)) (fun a ha _ => ?_) hchunks
    · rw [List.mem_singleton]
      exact (hchunkIds a).mp ha
    · rw [List.mem_singleton.mp ha]
      exact hchunk
  · refine ht.bursts.fewer c.burstIds (fun a ha => ?_) (fun a ha => ?_)
      (fun a ha _ => hburst a ha) fun a ha => hbursts a fun hmem => ?_
    · rw [hburstIds,List.mem_append] at ha
      exact ha
    · rw [hburstIds]
      exact List.mem_append_right _ ha
    · rw [hburstIds] at ha
      exact ha (List.mem_append_left _ hmem)
  · rw [hcalls]
    exact ht.desc_lt
  · rw [hcalls]
    exact fun a ha => ht.chunk_lt a ((hchunkIds a).mpr (Or.inr ha))
  · rw [hcalls]
    intro a ha
    refine ht.burst_lt a ?_
    rw [hburstIds]
    exact List.mem_append_right _ ha
  · rw [hcalls]
    exact ht.calls
  · have hfew := ht.few
    rw [hc,List.length_cons] at hfew
    exact Nat.lt_of_succ_lt hfew
  · exact fun k hk => ht.fewBursts k (by rw [hc]; exact List.mem_cons_of_mem c hk)

end

/-! ## Allocation -/

section
variable (os : ℕ → Bool) (chip : Chip) (chan : Chan) {g h : Heap} {t : DescTree}

theorem allocBurst_last {cs : List ChunkTree} {c : ChunkTree} (hg : g.Fresh) (ht : Over g h t)
    (hc : t.chunks = cs ++ [c]) (hfew : c.bursts.length + 1 < 4294967296) :
    ∃ h' r, allocBurst os h c.id = some (h',r) ∧ (r = none ∧ Over g h' t ∨
      ∃ b, r = some b ∧
        Over g h' { t with chunks := cs ++ [{ c with bursts := c.bursts ++ [(b,⟨0,0,0⟩)] }] }) := by
  by_cases hos : os h.calls = false
  · exact ⟨h.call,none,if_pos hos,Or.inl ⟨rfl,ht.of_eq rfl rfl rfl (Nat.le_succ _)⟩⟩
  have hcmem : c ∈ t.chunks := by rw [hc]; exact List.mem_append_right _ (List.mem_singleton_self c)
  obtain ⟨hb,hcircle⟩ := ht.lists c hcmem
  have hlist := ht.list
  rw [DescTree.nodes,hc,nodesOf_append] at hlist
  have hnode := hlist.node _
  -- the new burst
  have hnew : h.calls ∉ c.burstIds := fun hmem =>
    Nat.lt_irrefl _ (ht.burst_lt _ (mem_burstIds hcmem hmem))
  have hcircle' : Circle (new h.bursts h.calls ⟨0,0,0⟩) c.head hb c.bursts := by
    refine hcircle.congr fun a ha => Function.update_of_ne ?_ _ _
    rintro rfl
    exact hnew ha
  obtain ⟨p,hp,hpc,hpsame⟩ := addTail_circle hcircle' (new_self _ _ _) hnew
  obtain ⟨q,hq,hqc,hqsame⟩ := setVal_circle _ hlist
    fun c => { c with burstsAlloc := u32 (c.burstsAlloc + 1) }
  refine ⟨⟨h.calls + 1,h.descs,q,p⟩,some h.calls,?_,Or.inr ⟨h.calls,rfl,?_⟩⟩
  · simp only [allocBurst,if_neg hos,Heap.call,hnode,Option.bind_some,ChunkTree.obj,Heap.setChunk,hq,
      Option.map_some,hp]
  · refine ht.change_last hg hc rfl ?_ (List.nodup_singleton h.calls) ?_ ?_ ⟨hb,hpc⟩ rfl hqsame ?_
      (Nat.le_succ _) ?_
    · simp [ChunkTree.burstIds]
    · intro a ha
      rw [List.mem_singleton.mp ha]
      exact ⟨Nat.le_refl _,Nat.lt_succ_self _⟩
    · rw [nodesOf_append]
      have hobj : ChunkTree.obj { c with bursts := c.bursts ++ [(h.calls,⟨0,0,0⟩)] } =
          { c.obj with burstsAlloc := u32 (c.obj.burstsAlloc + 1) } := by
        simp only [ChunkTree.obj,List.length_append,List.length_singleton,u32_of_lt hfew]
      have hnodes : nodesOf [{ c with bursts := c.bursts ++ [(h.calls,⟨0,0,0⟩)] }] =
          [(c.id,{ c.obj with burstsAlloc := u32 (c.obj.burstsAlloc + 1) })] := by
        rw [← hobj]
        rfl
      rw [hnodes]
      exact hqc
    · intro a ha
      have hne : a ≠ h.calls := by
        rintro rfl
        exact ha (by simp [ChunkTree.burstIds])
      exact (hpsame a ha).trans (Function.update_of_ne hne _ _)
    · simpa using hfew

/-- The first burst of a chunk that has none becomes the head of its list. -/
theorem allocBurst_head {chunk : ℕ} {n : Node ℕ ChunkObj} (hn : h.chunks chunk = some n)
    (hnone : n.val.burst = none) (hos : os h.calls ≠ false) :
    allocBurst os h chunk = some (⟨h.calls + 1,h.descs,
      Function.update h.chunks chunk
        (some ⟨n.next,n.prev,{ n.val with burstsAlloc := 0, burst := some h.calls }⟩),
      new h.bursts h.calls ⟨0,0,0⟩⟩,some h.calls) := by
  simp only [allocBurst,if_neg hos,hn,Option.bind_some,hnone,Heap.setChunk,setVal,modify_some hn,
    Option.map_some,Heap.call]

theorem allocChunk_last (hg : g.Fresh) (ht : Over g h t) (hfew : t.chunks.length + 1 < 4294967296) :
    ∃ h' r, allocChunk os chip chan h t.id = some (h',r) ∧ (r = none ∧ Over g h' t ∨
      ∃ k b, r = some k ∧ Over g h' { t with chunks :=
        t.chunks ++ [⟨k,b,[],t.chunks.length % 2 == 0,{ chan.region chip with sz := 0 }⟩] }) := by
  by_cases hos : os h.calls = false
  · refine ⟨h.call,none,?_,Or.inl ⟨rfl,ht.of_eq rfl rfl rfl (Nat.le_succ _)⟩⟩
    rw [allocChunk,ht.desc,Option.bind_some,if_pos hos]
  have hfresh := ht.fresh hg
  let v : ChunkObj := ⟨none,0,t.chunks.length % 2 == 0,{ chan.region chip with sz := 0 }⟩
  let h₁ : Heap := ⟨h.calls + 1,h.descs,new h.chunks h.calls v,h.bursts⟩
  have hnode : h₁.chunks h.calls = some ⟨h.calls,h.calls,v⟩ := Function.update_self ..
  have hfails : ∀ h', allocBurst os h₁ h.calls = some (h',none) → allocChunk os chip chan h t.id =
      (h'.kfreeChunk h.calls).map fun h => (h,none) := by
    intro h' hb
    rw [allocChunk,ht.desc,Option.bind_some,if_neg hos]
    change (allocBurst os h₁ h.calls).bind _ = _
    rw [hb]
    rfl
  have hworks : ∀ h' b, allocBurst os h₁ h.calls = some (h',some b) →
      allocChunk os chip chan h t.id =
        (h'.setDesc t.id fun d => { d with chunksAlloc := u32 (d.chunksAlloc + 1) }).bind fun h' =>
        (addTail h'.chunks h.calls t.head).map fun p => ({ h' with chunks := p },some h.calls) := by
    intro h' b hb
    rw [allocChunk,ht.desc,Option.bind_some,if_neg hos]
    change (allocBurst os h₁ h.calls).bind _ = _
    rw [hb]
    rfl
  by_cases hos' : os (h.calls + 1) = false
  · -- the head of its bursts fails: the chunk is freed again
    refine ⟨⟨h.calls + 2,h.descs,Function.update h₁.chunks h.calls none,h.bursts⟩,none,?_,Or.inl ⟨rfl,?_⟩⟩
    · rw [hfails _ (if_pos (show os h₁.calls = false from hos'))]
      simp only [Heap.call,Heap.kfreeChunk,free_some hnode,Option.map_some]
      rfl
    · refine ht.of_eq rfl ?_ rfl (by dsimp only; omega)
      dsimp only [h₁,new]
      rw [Function.update_idem,Function.update_eq_self_iff]
      exact (hfresh.chunks _ (Nat.le_refl _)).symm
  have hburst := allocBurst_head os hnode rfl (show os h₁.calls ≠ false from hos')
  let chunks₂ := Function.update h₁.chunks h.calls
    (some ⟨h.calls,h.calls,{ v with burstsAlloc := 0, burst := some (h.calls + 1) }⟩)
  have hchunkNew : h.calls ∉ t.chunkIds := fun hmem => Nat.lt_irrefl _ (ht.chunk_lt _ hmem)
  have hsame₂ : ∀ a, a ≠ h.calls → chunks₂ a = h.chunks a := by
    intro a ha
    rw [show chunks₂ a = h₁.chunks a from Function.update_of_ne ha _ _]
    exact Function.update_of_ne ha _ _
  have hlist₂ : Circle chunks₂ t.head t.headObj t.nodes := by
    refine ht.list.congr fun a ha => hsame₂ a ?_
    rintro rfl
    exact hchunkNew ha
  obtain ⟨p,hp,hpc,hpsame⟩ := addTail_circle hlist₂ (Function.update_self ..) hchunkNew
  let d : ChunkTree :=
    ⟨h.calls,h.calls + 1,[],t.chunks.length % 2 == 0,{ chan.region chip with sz := 0 }⟩
  refine ⟨⟨h.calls + 2,Function.update h.descs t.id
    (some { t.obj with chunksAlloc := u32 (t.obj.chunksAlloc + 1) }),p,
    new h.bursts (h.calls + 1) ⟨0,0,0⟩⟩,some h.calls,?_,Or.inr ⟨h.calls,h.calls + 1,rfl,?_⟩⟩
  · rw [hworks _ _ hburst]
    simp only [Heap.setDesc,h₁,ht.desc,Option.map_some,Option.bind_some]
    rw [show addTail _ h.calls t.head = some p from hp]
    rfl
  · have hid : h.calls ≤ d.id ∧ d.id < h.calls + 2 := ⟨Nat.le_refl _,Nat.lt_add_of_pos_right Nat.two_pos⟩
    refine ht.add_last hg hid (List.nodup_singleton _) ?_ ?_ ?_ ?_ ⟨_,new_circle _ _ _⟩ ?_ ?_ hfew
      (by simp)
    · intro a ha
      rw [List.mem_singleton.mp ha]
      exact ⟨Nat.le_succ _,Nat.lt_succ_self _⟩
    · simp only [Function.update_self,DescTree.obj,List.length_append,List.length_singleton,
        u32_of_lt hfew]
    · exact fun a ha => Function.update_of_ne ha _ _
    · rw [nodesOf_append]
      exact hpc
    · intro a ha
      have hne : a ≠ h.calls := by
        rintro rfl
        exact ha (List.mem_append_right _ (List.mem_singleton_self _))
      rw [← hsame₂ a hne]
      refine hpsame a fun hmem => ha ?_
      simpa [DescTree.chunkIds,d] using hmem
    · intro a ha
      exact Function.update_of_ne (fun he => ha (by rw [he]; exact List.mem_singleton_self _)) _ _

/-- A descriptor with the head of its chunks, or `NULL` and nothing. -/
theorem allocDesc_cases (hg : g.Fresh) : ∃ h' r, allocDesc os chip chan g = some (h',r) ∧
    (r = none ∧ g.Same h' ∨ ∃ t, r = some t.id ∧ Over g h' t ∧ t.chunks = [] ∧ t.allocSz = 0 ∧
      t.xferSz = 0) := by
  by_cases hos : os g.calls = false
  · exact ⟨g.call,none,if_pos hos,Or.inl ⟨rfl,rfl,rfl,rfl⟩⟩
  let h₁ : Heap := ⟨g.calls + 1,Function.update g.descs g.calls (some ⟨none,0,0,0⟩),g.chunks,g.bursts⟩
  have hdesc : h₁.descs g.calls = some ⟨none,0,0,0⟩ := Function.update_self ..
  have hfails : ∀ h', allocChunk os chip chan h₁ g.calls = some (h',none) →
      allocDesc os chip chan g = (h'.kfreeDesc g.calls).map fun h => (h,none) := by
    intro h' hc
    rw [allocDesc,if_neg hos]
    change (allocChunk os chip chan h₁ g.calls).bind _ = _
    rw [hc]
    rfl
  have hworks : ∀ h' c, allocChunk os chip chan h₁ g.calls = some (h',some c) →
      allocDesc os chip chan g = some (h',some g.calls) := by
    intro h' c hc
    rw [allocDesc,if_neg hos]
    change (allocChunk os chip chan h₁ g.calls).bind _ = _
    rw [hc]
    rfl
  by_cases hos' : os (g.calls + 1) = false
  · -- the head of its chunks fails: the descriptor is freed again
    refine ⟨⟨g.calls + 2,Function.update h₁.descs g.calls none,g.chunks,g.bursts⟩,none,?_,
      Or.inl ⟨rfl,?_,rfl,rfl⟩⟩
    · have hchunk : allocChunk os chip chan h₁ g.calls = some (h₁.call,none) := by
        rw [allocChunk,hdesc,Option.bind_some,if_pos (show os h₁.calls = false from hos')]
      rw [hfails _ hchunk]
      simp only [Heap.call,Heap.kfreeDesc,hdesc,Option.map_some]
      rfl
    · dsimp only [h₁]
      rw [Function.update_idem,Function.update_eq_self_iff]
      exact (hg.descs _ (Nat.le_refl _)).symm
  let v : ChunkObj := ⟨none,0,true,{ chan.region chip with sz := 0 }⟩
  let t : DescTree := ⟨g.calls,g.calls + 1,v,[],0,0⟩
  refine ⟨⟨g.calls + 2,Function.update h₁.descs g.calls (some t.obj),new g.chunks (g.calls + 1) v,
    g.bursts⟩,some g.calls,?_,Or.inr ⟨t,rfl,?_,rfl,rfl,rfl⟩⟩
  · refine hworks _ (g.calls + 1) ?_
    rw [allocChunk,hdesc,Option.bind_some,if_neg (show ¬ os h₁.calls = false from hos')]
    simp only [Heap.setDesc,Heap.call,hdesc,Option.map_some]
    rfl
  · refine ⟨Function.update_self ..,new_circle _ _ _,fun c hc => by contradiction,List.nodup_nil,
      ⟨?_,?_⟩,⟨?_,?_⟩,Grown.refl _,?_,?_,fun a ha => by contradiction,?_,by simp [t],
      fun c hc => by contradiction⟩
    · intro a ha
      have hne : a ≠ g.calls := by simpa using ha
      exact (Function.update_of_ne hne _ _).trans (Function.update_of_ne hne _ _)
    · intro a ha
      rw [List.mem_singleton.mp ha]
      exact hg.descs _ (Nat.le_refl _)
    · intro a ha
      exact Function.update_of_ne (fun he => ha (by rw [he]; exact List.mem_singleton_self _)) _ _
    · intro a ha
      rw [List.mem_singleton.mp ha]
      exact hg.chunks _ (Nat.le_succ _)
    · exact Nat.lt_add_of_pos_right Nat.two_pos
    · intro a ha
      rw [List.mem_singleton.mp ha]
      exact Nat.lt_succ_self _
    · exact Nat.le_add_right _ _

theorem Over.set_desc (ht : Over g h t) {f : DescObj → DescObj} {a x : ℕ}
    (hf : f t.obj = { t.obj with allocSz := a, xferSz := x }) :
    ∃ h', h.setDesc t.id f = some h' ∧ Over g h' { t with allocSz := a, xferSz := x } := by
  refine ⟨{ h with descs := Function.update h.descs t.id (some (f t.obj)) },?_,?_⟩
  · rw [Heap.setDesc,ht.desc,Option.map_some]
  · refine ⟨?_,ht.list,ht.lists,ht.apart,?_,ht.chunks,ht.bursts,ht.desc_lt,ht.chunk_lt,ht.burst_lt,
      ht.calls,ht.few,ht.fewBursts⟩
    · rw [hf]
      exact Function.update_self ..
    · exact ht.descs.change fun a ha => Function.update_of_ne (by simpa using ha) _ _

theorem Over.set_burst {cs : List ChunkTree} {c : ChunkTree} {bs : List (ℕ × Burst)} {k : ℕ}
    {v : Burst} (hg : g.Fresh) (ht : Over g h t) (hc : t.chunks = cs ++ [c])
    (hb : c.bursts = bs ++ [(k,v)]) (b : Burst) : ∃ h', h.setBurst k (fun _ => b) = some h' ∧
      Over g h' { t with chunks := cs ++ [{ c with bursts := bs ++ [(k,b)] }] } := by
  have hcmem : c ∈ t.chunks := by rw [hc]; exact List.mem_append_right _ (List.mem_singleton_self c)
  obtain ⟨hb',hcircle⟩ := ht.lists c hcmem
  rw [hb] at hcircle
  obtain ⟨p,hp,hpc,hpsame⟩ := setVal_circle _ hcircle fun _ => b
  have hids : ChunkTree.burstIds { c with bursts := bs ++ [(k,b)] } = c.burstIds ++ [] := by
    simp [ChunkTree.burstIds,hb]
  have hlen : (bs ++ [(k,b)]).length = c.bursts.length := by simp [hb]
  refine ⟨{ h with bursts := p },by rw [Heap.setBurst,hp,Option.map_some],?_⟩
  refine ht.change_last hg hc rfl hids List.nodup_nil (fun a ha => by contradiction) ?_ ⟨hb',hpc⟩ rfl
    (fun _ _ => rfl) (fun a ha => hpsame a ?_) (Nat.le_refl _) ?_
  · have hlist := ht.list
    rw [DescTree.nodes,hc,nodesOf_append] at hlist
    rw [nodesOf_append]
    have hobj : ChunkTree.obj { c with bursts := bs ++ [(k,b)] } = c.obj := by
      simp only [ChunkTree.obj,hlen]
    simpa only [nodesOf,List.map_cons,List.map_nil,hobj] using hlist
  · rintro rfl
    exact ha (by simp [ChunkTree.burstIds])
  · rw [hlen]
    exact ht.fewBursts c hcmem

theorem Over.set_chunk {cs : List ChunkTree} {c : ChunkTree} (hg : g.Fresh) (ht : Over g h t)
    (hc : t.chunks = cs ++ [c]) (f : Region → Region) :
    ∃ h', h.setChunk c.id (fun c => { c with llRegion := f c.llRegion }) = some h' ∧
      Over g h' { t with chunks := cs ++ [{ c with llRegion := f c.llRegion }] } := by
  have hcmem : c ∈ t.chunks := by rw [hc]; exact List.mem_append_right _ (List.mem_singleton_self c)
  have hlist := ht.list
  rw [DescTree.nodes,hc,nodesOf_append] at hlist
  obtain ⟨q,hq,hqc,hqsame⟩ := setVal_circle _ hlist fun c => { c with llRegion := f c.llRegion }
  refine ⟨{ h with chunks := q },by rw [Heap.setChunk,hq,Option.map_some],?_⟩
  refine ht.change_last hg hc rfl (List.append_nil _).symm List.nodup_nil
    (fun a ha => by contradiction) ?_ (ht.lists c hcmem) rfl hqsame (fun _ _ => rfl) (Nat.le_refl _)
    (ht.fewBursts c hcmem)
  rw [nodesOf_append]
  exact hqc

def ChunkTree.add (c : ChunkTree) (k : ℕ) (b : Burst) : ChunkTree :=
  { c with
    bursts := c.bursts ++ [(k,b)]
    llRegion := { c.llRegion with sz := c.llRegion.sz + b.sz } }

theorem addBurst_last {cs : List ChunkTree} {c : ChunkTree} (hg : g.Fresh) (ht : Over g h t)
    (hc : t.chunks = cs ++ [c]) (hfew : c.bursts.length + 1 < 4294967296) (b : Burst) :
    ∃ h' r, addBurst os t.id b h c.id = some (h',r) ∧ (r = none ∧ Over g h' t ∨
      ∃ k, r = some k ∧ Over g h'
        { t with chunks := cs ++ [c.add k b], allocSz := u32 (t.allocSz + b.sz) }) := by
  obtain ⟨h₁,r,h₁e,⟨rfl,h₁t⟩ | ⟨k,rfl,h₁t⟩⟩ := allocBurst_last os hg ht hc hfew
  · exact ⟨h₁,none,by rw [addBurst,h₁e,Option.bind_some],Or.inl ⟨rfl,h₁t⟩⟩
  obtain ⟨h₂,h₂e,h₂t⟩ := h₁t.set_burst hg rfl rfl b
  obtain ⟨h₃,h₃e,h₃t⟩ := h₂t.set_chunk hg rfl fun r => { r with sz := r.sz + b.sz }
  obtain ⟨h₄,h₄e,h₄t⟩ := h₃t.set_desc (f := fun d => { d with allocSz := u32 (d.allocSz + b.sz) })
    (a := u32 (t.allocSz + b.sz)) (x := t.xferSz) rfl
  refine ⟨h₄,some k,?_,Or.inr ⟨k,rfl,h₄t⟩⟩
  rw [addBurst,h₁e,Option.bind_some]
  dsimp only
  rw [h₂e,Option.bind_some,h₃e,Option.bind_some,h₄e,Option.map_some]

end

/-! ## Release -/

section
variable {g h : Heap} {t : DescTree}

theorem length_le_of_nodup {xs : List ℕ} {n : ℕ} (hx : xs.Nodup) (hlt : ∀ a ∈ xs, a < n) :
    xs.length ≤ n := by
  have hsub := List.subperm_of_subset hx fun a ha => List.mem_range.mpr (hlt a ha)
  simpa using hsub.length_le

theorem u32_pred {n : ℕ} (h : n + 1 < 4294967296) : u32 (n + 1 + 4294967295) = n := by
  unfold u32
  omega

/-- While the bursts of a chunk are freed: `xs` are left. -/
structure Dropping (h : Heap) (k : ℕ) (n : Node ℕ ChunkObj) (c : ChunkTree) (hb : Burst)
    (xs : List (ℕ × Burst)) (s : Heap) : Prop where
  gone : ∃ done, c.bursts = done ++ xs ∧ ∀ a ∈ done.map Prod.fst, s.bursts a = none
  calls : s.calls = h.calls
  descs : s.descs = h.descs
  chunks : s.chunks =
    Function.update h.chunks k (some ⟨n.next,n.prev,{ c.obj with burstsAlloc := xs.length }⟩)
  circle : Circle s.bursts c.head hb xs
  same : ∀ a, a ∉ c.burstIds → s.bursts a = h.bursts a

theorem dropBurst_step {k : ℕ} {n : Node ℕ ChunkObj} {c : ChunkTree} {hb : Burst}
    (hnodup : c.burstIds.Nodup) (hfew : c.bursts.length < 4294967296) {x : ℕ × Burst}
    {xs : List (ℕ × Burst)} {s : Heap} (hs : Dropping h k n c hb (x :: xs) s) :
    ∃ s', dropBurst k s x.1 = some s' ∧ Dropping h k n c hb xs s' := by
  obtain ⟨⟨done,hdone,hnone⟩,hcalls,hdescs,hchunks,hcircle,hsame⟩ := hs
  obtain ⟨q,hq,hqc,hqsame⟩ := del_circle hcircle
  have hids : c.burstIds = c.head :: (done.map Prod.fst ++ x.1 :: xs.map Prod.fst) := by
    rw [ChunkTree.burstIds,hdone,List.map_append,List.map_cons]
  have hlen : xs.length + 1 < 4294967296 := by
    rw [hdone,List.length_append,List.length_cons] at hfew
    omega
  have hnd := hcircle.nodup
  rw [List.map_cons,List.nodup_cons,List.nodup_cons,List.mem_cons,not_or] at hnd
  have hxout : x.1 ∉ c.head :: xs.map Prod.fst := by
    rw [List.mem_cons,not_or]
    exact ⟨fun he => hnd.1.1 he.symm,hnd.2.1⟩
  obtain ⟨m,hm⟩ := hcircle.live (List.mem_cons_of_mem _ List.mem_cons_self)
  have hxnode : q x.1 = some m := (hqsame _ hxout).trans hm
  have hchunk : s.chunks k = some ⟨n.next,n.prev,{ c.obj with burstsAlloc := xs.length + 1 }⟩ := by
    rw [hchunks,Function.update_self]
    rfl
  refine ⟨⟨s.calls,s.descs,Function.update s.chunks k
    (some ⟨n.next,n.prev,{ c.obj with burstsAlloc := xs.length }⟩),Function.update q x.1 none⟩,?_,
    ⟨done ++ [x],?_,?_⟩,hcalls,hdescs,?_,?_,?_⟩
  · rw [dropBurst,hq,Option.bind_some]
    simp only [Heap.kfreeBurst,free_some hxnode,Option.map_some,Option.bind_some,Heap.setChunk,setVal,
      modify_some hchunk,u32_pred hlen]
  · rw [hdone,List.append_assoc]
    rfl
  · intro a ha
    by_cases hax : a = x.1
    · rw [hax]
      exact Function.update_self ..
    · rw [List.map_append,List.mem_append] at ha
      have hadone : a ∈ done.map Prod.fst := by
        rcases ha with ha | ha
        · exact ha
        · exact absurd (by simpa using ha) hax
      refine (Function.update_of_ne hax _ _).trans ((hqsame a ?_).trans (hnone a hadone))
      -- the names of a list are those of different objects
      rw [hids,List.nodup_cons] at hnodup
      intro hmem
      rcases List.mem_cons.mp hmem with rfl | hmem
      · exact hnodup.1 (List.mem_append_left _ hadone)
      · exact List.disjoint_of_nodup_append hnodup.2 hadone (List.mem_cons_of_mem _ hmem)
  · dsimp only
    rw [hchunks,Function.update_idem]
  · refine hqc.congr fun a ha => Function.update_of_ne ?_ _ _
    rintro rfl
    exact hxout ha
  · intro a ha
    have hax : a ≠ x.1 := by
      rintro rfl
      exact ha (by rw [hids]; simp)
    refine (Function.update_of_ne hax _ _).trans ((hqsame a ?_).trans (hsame a ha))
    intro hmem
    refine ha ?_
    rw [hids]
    rcases List.mem_cons.mp hmem with rfl | hmem
    · exact List.mem_cons_self
    · exact List.mem_cons_of_mem _ (List.mem_append_right _ (List.mem_cons_of_mem _ hmem))

/-- Every burst of a chunk is freed, its list head at the end. -/
theorem freeBurst_frees {k : ℕ} {n : Node ℕ ChunkObj} {c : ChunkTree} {hb : Burst}
    (hn : h.chunks k = some n) (hobj : n.val = c.obj) (hcircle : Circle h.bursts c.head hb c.bursts)
    (hfew : c.bursts.length < 4294967296) (hcalls : c.bursts.length ≤ h.calls) :
    ∃ p, freeBurst h k = some ⟨h.calls,h.descs,Function.update h.chunks k
        (some ⟨n.next,n.prev,{ c.obj with burst := none, burstsAlloc := 0 }⟩),p⟩ ∧
      (∀ a ∈ c.burstIds, p a = none) ∧ ∀ a, a ∉ c.burstIds → p a = h.bursts a := by
  have hstart : Dropping h k n c hb c.bursts h := by
    refine ⟨⟨[],rfl,fun a ha => by contradiction⟩,rfl,rfl,?_,hcircle,fun _ _ => rfl⟩
    have hval : (⟨n.next,n.prev,{ c.obj with burstsAlloc := c.bursts.length }⟩ : Node ℕ ChunkObj) =
        n := by
      change (⟨n.next,n.prev,c.obj⟩ : Node ℕ ChunkObj) = n
      rw [← hobj]
    rw [hval,← hn,Function.update_eq_self]
  obtain ⟨s,hs,⟨⟨done,hdone,hnone⟩,hscalls,hsdescs,hschunks,hscircle,hssame⟩⟩ :=
    forEachSafe_circle Heap.bursts (dropBurst k) c.head (Dropping h k n c hb)
      (fun xs s hs => ⟨hb,hs.circle⟩) (fun x xs s hs => dropBurst_step hcircle.nodup hfew hs) hcalls hstart
  have hhead : s.bursts c.head = some ⟨c.head,c.head,hb⟩ := hscircle.head_eq
  have hchunk : s.chunks k = some ⟨n.next,n.prev,{ c.obj with burstsAlloc := 0 }⟩ := by
    rw [hschunks,Function.update_self]
    rfl
  have hburst : n.val.burst = some c.head := by rw [hobj]; rfl
  refine ⟨Function.update s.bursts c.head none,?_,?_,?_⟩
  · rw [freeBurst,hn,Option.bind_some,hburst,Option.bind_some,hs,Option.bind_some]
    simp only [Heap.kfreeBurst,free_some hhead,Option.map_some,Option.bind_some,Heap.setChunk,setVal,
      modify_some hchunk]
    rw [hscalls,hsdescs,hschunks,Function.update_idem]
  · intro a ha
    by_cases hah : a = c.head
    · rw [hah]
      exact Function.update_self ..
    · refine (Function.update_of_ne hah _ _).trans (hnone a ?_)
      rw [List.append_nil] at hdone
      rw [← hdone]
      exact (List.mem_cons.mp ha).resolve_left hah
  · intro a ha
    have hah : a ≠ c.head := by
      rintro rfl
      exact ha List.mem_cons_self
    exact (Function.update_of_ne hah _ _).trans (hssame a ha)

theorem dropChunk_first {c : ChunkTree} {cs : List ChunkTree} (ht : Over g h t)
    (hc : t.chunks = c :: cs) : ∃ h', dropChunk t.id h c.id = some h' ∧
      Over g h' { t with chunks := cs } ∧ h'.calls = h.calls := by
  have hcmem : c ∈ t.chunks := by rw [hc]; exact List.mem_cons_self
  obtain ⟨hb,hcircle⟩ := ht.lists c hcmem
  have hlist := ht.list
  rw [DescTree.nodes,hc] at hlist
  have hnode : h.chunks c.id = some ⟨first (nodesOf cs) t.head,t.head,c.obj⟩ :=
    hlist.node []
  have hcalls : c.bursts.length ≤ h.calls := by
    have hnodup := (List.nodup_cons.mp hcircle.nodup).2
    have hle := length_le_of_nodup hnodup fun a ha =>
      ht.burst_lt a (mem_burstIds hcmem (List.mem_cons_of_mem _ ha))
    rwa [List.length_map] at hle
  obtain ⟨p,hp,hpnone,hpsame⟩ := freeBurst_frees hnode rfl hcircle (ht.fewBursts c hcmem) hcalls
  -- the chunk, now without bursts, leaves the list
  obtain ⟨q,hq,hqc,hqsame⟩ := setVal_circle [] hlist
    fun _ => { c.obj with burst := none, burstsAlloc := 0 }
  have hqe : Function.update h.chunks c.id (some ⟨first (nodesOf cs) t.head,t.head,
      { c.obj with burst := none, burstsAlloc := 0 }⟩) = q := by
    rw [setVal,modify_some hnode] at hq
    exact Option.some.inj hq
  rw [hqe] at hp
  obtain ⟨r,hr,hrc,hrsame⟩ := del_circle hqc
  have hnd := hlist.nodup
  rw [nodesOf,List.map_cons,List.map_cons,List.nodup_cons,List.nodup_cons,List.mem_cons,not_or] at hnd
  have hcout : c.id ∉ t.head :: (nodesOf cs).map Prod.fst := by
    rw [List.mem_cons,not_or]
    exact ⟨fun he => hnd.1.1 he.symm,hnd.2.1⟩
  obtain ⟨m,hm⟩ := hqc.live (List.mem_cons_of_mem _ List.mem_cons_self)
  have hcnode : r c.id = some m := (hrsame _ hcout).trans hm
  have hlen : cs.length + 1 < 4294967296 := by
    have hfew := ht.few
    rwa [hc,List.length_cons] at hfew
  refine ⟨⟨h.calls,Function.update h.descs t.id (some (DescTree.obj { t with chunks := cs })),
    Function.update r c.id none,p⟩,?_,?_,rfl⟩
  · rw [dropChunk,hp,Option.bind_some]
    simp only [hr,Option.bind_some,Heap.kfreeChunk,free_some hcnode,Option.map_some,Heap.setDesc,
      ht.desc,DescTree.obj,hc,List.length_cons,u32_pred hlen]
  · refine ht.drop_first hc (Function.update_self ..) (fun a ha => Function.update_of_ne ha _ _)
      (hrc.congr fun a ha => Function.update_of_ne ?_ _ _) (Function.update_self ..) ?_ hpnone hpsame
      rfl
    · rintro rfl
      exact hcout ha
    · intro a ha
      have hids : t.chunkIds = t.head :: c.id :: (nodesOf cs).map Prod.fst := by
        rw [DescTree.chunkIds,DescTree.nodes,hc]
        rfl
      rw [hids,List.mem_cons,List.mem_cons,not_or,not_or] at ha
      refine (Function.update_of_ne ha.2.1 _ _).trans ((hrsame a ?_).trans (hqsame a ha.2.1))
      rw [List.mem_cons,not_or]
      exact ⟨ha.1,ha.2.2⟩

/-- Dropping a descriptor leaves the heap as it was without it. -/
theorem freeDesc_frees (ht : Over g h t) :
    ∃ h', freeDesc h t.id = some h' ∧ g.Same h' ∧ h'.calls = h.calls := by
  have hlen : t.nodes.length ≤ h.calls := by
    have hnodup := (List.nodup_cons.mp ht.list.nodup).2
    have hle := length_le_of_nodup hnodup fun a ha => ht.chunk_lt a (List.mem_cons_of_mem _ ha)
    rwa [List.length_map] at hle
  obtain ⟨s,hs,cs,hcs,hst,hscalls⟩ := forEachSafe_circle Heap.chunks
    (dropChunk t.id) t.head (fun xs s => ∃ cs, nodesOf cs = xs ∧ Over g s { t with chunks := cs } ∧ s.calls = h.calls)
    (fun xs s ⟨cs,hcs,hst,_⟩ => ⟨t.headObj,by rw [← hcs]; exact hst.list⟩)
    (fun x xs s ⟨cs,hcs,hst,hcalls⟩ => by
      cases cs with
      | nil => contradiction
      | cons c cs =>
        obtain ⟨rfl,rfl⟩ := List.cons.inj hcs
        obtain ⟨s',hs',hst',hcalls'⟩ := dropChunk_first hst rfl
        exact ⟨s',hs',cs,rfl,hst',hcalls'.trans hcalls⟩)
    hlen ⟨t.chunks,rfl,ht,rfl⟩
  have hnil : cs = [] := List.map_eq_nil_iff.mp hcs
  subst hnil
  have hhead : s.chunks t.head = some ⟨t.head,t.head,t.headObj⟩ := hst.list.head_eq
  have hdesc : s.descs t.id = some ⟨some t.head,0,t.allocSz,t.xferSz⟩ := hst.desc
  refine ⟨⟨s.calls,Function.update (Function.update s.descs t.id
    (some ⟨none,0,t.allocSz,t.xferSz⟩)) t.id none,Function.update s.chunks t.head none,s.bursts⟩,?_,
    ⟨?_,?_,hst.bursts.eq⟩,hscalls⟩
  · rw [freeDesc,freeChunk,ht.desc,Option.bind_some]
    simp only [DescTree.obj,hs,Option.bind_some,Heap.kfreeChunk,free_some hhead,Option.map_some,
      Heap.setDesc,hdesc,Heap.kfreeDesc,Function.update_self]
  · funext a
    dsimp only
    rw [Function.update_idem]
    by_cases ha : a = t.id
    · rw [ha,Function.update_self]
      exact (hst.descs.new _ (List.mem_singleton_self _)).symm
    · rw [Function.update_of_ne ha]
      exact hst.descs.same a (by simpa using ha)
  · funext a
    by_cases ha : a = t.head
    · rw [ha]
      exact (Function.update_self ..).trans (hst.chunks.new _ List.mem_cons_self).symm
    · refine (Function.update_of_ne ha _ _).trans (hst.chunks.same a ?_)
      simpa [DescTree.chunkIds,DescTree.nodes,nodesOf] using ha

end

end AkidaEdma.DescMemory
