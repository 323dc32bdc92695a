import AkidaEdma.Engine.LinkedList
import AkidaEdma.Library.BlockCopy

/-! # The memories that the engine works on

The engine reads its lists on its own side and moves data between this side and the far one. The
CPU stores the lists through an aperture, at other addresses than those that the engine reads.
-/
namespace AkidaEdma.DwEdma
open LittleEndian Footprint BlockCopy

structure Bus where
  near : Memory
  far : Memory

def Burst.copy (b : Burst) : Copy := ⟨b.sar,b.dar,b.sz⟩

/-- The bytes of a burst on the engine's side. -/
def Burst.near (dir : Dir) (b : Burst) : Set ℕ :=
  if dir = .write then b.copy.source else b.copy.target

/-- A write channel moves data away from the engine's side, a read channel towards it. -/
def Bus.move (dir : Dir) (b : Burst) (m : Bus) : Bus :=
  match dir with
  | .write => { m with far := b.copy.run m.near m.far }
  | .read => { m with near := b.copy.run m.far m.near }

def Bus.moves (bs : List (Dir × Burst)) (m : Bus) : Bus :=
  bs.foldl (fun m b => m.move b.1 b.2) m

/-- The memories are the same, but for the bytes of `A` on the engine's side. -/
structure Bus.Agrees (A : Set ℕ) (m m' : Bus) : Prop where
  far : m'.far = m.far
  near : Set.EqOn m'.near m.near Aᶜ

theorem Bus.Agrees.refl (A : Set ℕ) (m : Bus) : m.Agrees A m := ⟨rfl,fun _ _ => rfl⟩

theorem Bus.Agrees.trans {A : Set ℕ} {m m' m'' : Bus} (h : m.Agrees A m') (h' : m'.Agrees A m'') :
    m.Agrees A m'' := ⟨h'.far.trans h.far,h'.near.trans h.near⟩

theorem moves_append (bs cs : List (Dir × Burst)) (m : Bus) :
    m.moves (bs ++ cs) = (m.moves bs).moves cs := List.foldl_append

theorem Bus.Agrees.move {A : Set ℕ} {m m' : Bus} (h : m.Agrees A m') {dir : Dir} {b : Burst}
    (hb : Disjoint (b.near dir) A) : (m.move dir b).Agrees A (m'.move dir b) := by
  cases dir with
  | write =>
    refine ⟨?_,h.near⟩
    have hsource : ∀ c ∈ [b.copy], Set.EqOn m'.near m.near c.source := by
      intro c hc x hx
      rw [List.mem_singleton.mp hc] at hx
      exact h.near (Set.disjoint_left.mp hb hx)
    have hall : Set.EqOn m'.far m.far Set.univ := fun x _ => congrFun h.far x
    funext x
    exact copies_congr hsource hall (Set.mem_univ x)
  | read =>
    have hsource : ∀ c ∈ [b.copy], Set.EqOn m'.far m.far c.source :=
      fun _ _ x _ => congrFun h.far x
    exact ⟨h.far,copies_congr hsource h.near⟩

/-- Bursts of one write channel are copied one after the other; so are those of a read channel. -/
theorem moves_write (bs : List Burst) (m : Bus) : m.moves (bs.map (Prod.mk .write)) =
    { m with far := copies (bs.map Burst.copy) m.near m.far } := by
  induction bs generalizing m with
  | nil => rfl
  | cons b bs ih => exact ih (m.move .write b)

theorem moves_read (bs : List Burst) (m : Bus) : m.moves (bs.map (Prod.mk .read)) =
    { m with near := copies (bs.map Burst.copy) m.far m.near } := by
  induction bs generalizing m with
  | nil => rfl
  | cons b bs ih => exact ih (m.move .read b)

/-! ## The aperture of the CPU -/

/-- The CPU reaches `len` bytes from `target` at `base`. -/
structure Aperture where
  base : ℕ
  target : ℕ
  len : ℕ
  deriving DecidableEq, Repr

def Aperture.view (w : Aperture) (m : Memory) : Memory := fun x => m (x - w.base + w.target)

/-- The stores of `f`, which are made at the addresses of the CPU. -/
def Aperture.through (w : Aperture) (f : Memory → Memory) (m : Memory) : Memory :=
  overwrite w.target w.len (fun i => f (w.view m) (w.base + i)) m

/-- The CPU reaches the whole region at its `vaddr`. -/
structure Region.Reached (w : Aperture) (r : Region) : Prop where
  low : w.target ≤ r.paddr
  same : r.vaddr + w.target = w.base + r.paddr
  high : r.paddr + r.sz ≤ w.target + w.len

theorem Region.Reached.inside {w : Aperture} {r : Region} (h : r.Reached w)
    (f : Memory → Memory) (m : Memory) {i : ℕ} (hi : i < r.sz) :
    w.through f m (r.paddr + i) = f (w.view m) (r.vaddr + i) := by
  obtain ⟨hlow,hsame,hhigh⟩ := h
  have haddr : r.paddr + i = w.target + (r.paddr - w.target + i) := by omega
  have hvaddr : w.base + (r.paddr - w.target + i) = r.vaddr + i := by omega
  rw [haddr,Aperture.through,overwrite_inside _ _ (by omega),hvaddr]

/-- A byte that `f` leaves alone. -/
theorem Region.Reached.outside {w : Aperture} {r : Region} (h : r.Reached w)
    {f : Memory → Memory} {m : Memory} {n x : ℕ} (hx : x ∉ Set.Ico r.paddr (r.paddr + n))
    (hf : ∀ y, y < r.vaddr ∨ r.vaddr + n ≤ y → f (w.view m) y = w.view m y) :
    w.through f m x = m x := by
  obtain ⟨hlow,hsame,_⟩ := h
  rw [Set.mem_Ico] at hx
  by_cases hin : w.target ≤ x ∧ x < w.target + w.len
  · obtain ⟨i,rfl⟩ := Nat.exists_eq_add_of_le hin.1
    rw [Aperture.through,overwrite_inside _ _ (by omega),hf _ (by omega)]
    have hview : w.base + i - w.base + w.target = w.target + i := by omega
    rw [Aperture.view,hview]
  · exact if_neg hin

/-! ## The list as the engine finds it -/

/-- A list of the bursts `bs` lies at `a`, with the cycle bit `cb`; its link points to `p` and
toggles the cycle state. -/
structure Listed (m : Memory) (a : ℕ) (cb : Bool) (bs : List Burst) (p : ℕ) : Prop where
  burst : ∀ j b, bs[j]? = some b →
    (loadControl (a + 24 * j) m).getLsbD 2 = false ∧
      (loadControl (a + 24 * j) m).getLsbD 0 = cb ∧ (loadElement (a + 24 * j) m).burst = b
  link : (loadControl (a + 24 * bs.length) m).getLsbD 2 = true
  toggle : (loadControl (a + 24 * bs.length) m).getLsbD 1 = true
  pointer : (loadLink (a + 24 * bs.length) m).pointer = p

theorem loadControl_shift {a a' : ℕ} {m m' : Memory}
    (h : ∀ i, i < 4 → m' (a' + i) = m (a + i)) : loadControl a' m' = loadControl a m := by
  rw [loadControl,loadControl,load_shift h]

theorem load_field {a a' k n s : ℕ} {m m' : Memory} (hs : k + n ≤ s)
    (h : ∀ i, i < s → m' (a' + i) = m (a + i)) : load (a' + k) n m' = load (a + k) n m := by
  refine load_shift fun i hi => ?_
  rw [Nat.add_assoc,Nat.add_assoc]
  exact h (k + i) (by omega)

/-- The same bytes at another place are the same list. -/
theorem Listed.shift {a a' p : ℕ} {cb : Bool} {bs : List Burst} {m m' : Memory}
    (h : Listed m a cb bs p) (hm : ∀ i, i < 24 * bs.length + 16 → m' (a' + i) = m (a + i)) :
    Listed m' a' cb bs p := by
  have hat : ∀ j s, 24 * j + s ≤ 24 * bs.length + 16 → ∀ i, i < s →
      m' (a' + 24 * j + i) = m (a + 24 * j + i) := by
    intro j s hs i hi
    rw [Nat.add_assoc,Nat.add_assoc]
    exact hm _ (by omega)
  have hcontrol : ∀ j, j ≤ bs.length →
      loadControl (a' + 24 * j) m' = loadControl (a + 24 * j) m :=
    fun j hj => loadControl_shift (hat j 4 (by omega))
  refine ⟨fun j b hb => ?_,?_,?_,?_⟩
  · have hj : j < bs.length := (List.getElem?_eq_some_iff.mp hb).1
    obtain ⟨hbit,hcb,hburst⟩ := h.burst j b hb
    have hfield := fun k n (hk : k + n ≤ 24) => load_field hk (hat j 24 (by omega))
    rw [hcontrol j (Nat.le_of_lt hj)]
    refine ⟨hbit,hcb,?_⟩
    rw [← hburst]
    simp only [loadElement,hfield 8 8 (by omega),hfield 16 8 (by omega),hfield 4 4 (by omega)]
  · rw [hcontrol _ (Nat.le_refl _)]
    exact h.link
  · rw [hcontrol _ (Nat.le_refl _)]
    exact h.toggle
  · have hpointer := load_field (k := 8) (n := 8) (by omega) (hat bs.length 16 (by omega))
    rw [← h.pointer]
    exact hpointer

/-- What the walk of the engine finds. -/
theorem listed_of_decode {m : Memory} {fuel : ℕ} {cb : Bool} {es : List Element} {l : Link} :
    ∀ {a}, decode m fuel a = some (es,l) → (∀ e ∈ es, e.control.getLsbD 0 = cb) →
      l.control.getLsbD 1 = true → Listed m a cb (es.map Element.burst) l.pointer := by
  induction fuel generalizing es with
  | zero => intro a h; contradiction
  | succ fuel ih =>
    intro a h hcb htoggle
    rw [decode] at h
    split at h
    · rename_i hbit
      cases h
      exact ⟨fun j b hb => absurd hb (by simp),hbit,htoggle,rfl⟩
    · rename_i hbit
      obtain ⟨⟨es,l⟩,hr,he⟩ := Option.map_eq_some_iff.mp h
      cases he
      have hhead : (loadControl a m).getLsbD 0 = cb := hcb (loadElement a m) List.mem_cons_self
      have hrest := ih hr (fun e he => hcb e (List.mem_cons_of_mem _ he)) htoggle
      have hnext : ∀ j, a + 24 + 24 * j = a + 24 * (j + 1) := fun j => by omega
      refine ⟨fun j b hb => ?_,?_,?_,?_⟩
      · cases j with
        | zero =>
          exact ⟨by simpa using hbit,by simpa using hhead,Option.some.inj hb⟩
        | succ j =>
          rw [← hnext]
          exact hrest.burst j b hb
      · rw [List.map_cons,List.length_cons,← hnext]
        exact hrest.link
      · rw [List.map_cons,List.length_cons,← hnext]
        exact hrest.toggle
      · rw [List.map_cons,List.length_cons,← hnext]
        exact hrest.pointer

/-- The list of a chunk that the CPU writes is the one that the engine finds. -/
theorem writeChunk_listed {w : Aperture} {region : Region} (hreach : region.Reached w)
    {chunk : Chunk} (hexact : chunk.Exact region) (htyped : ∀ b ∈ chunk.burst, b.Typed)
    (hsz : 24 * chunk.burst.length + 16 ≤ region.sz)
    (hpaddr : region.paddr < 18446744073709551616) (core : Core) (force32 : Bool) (chip : Chip)
    (m : Memory) : Listed (w.through (core.writeChunk force32 chip chunk) m) region.paddr
      chunk.cb chunk.burst region.paddr := by
  have hlen := elements_length chip.isLocal chunk.cb chunk.burst
  have hlinked := elements_linked chip.isLocal chunk.cb chunk.llRegion.paddr chunk.burst
  have hdecode : decode (core.writeChunk force32 chip chunk (w.view m)) (chunk.burst.length + 1)
      region.vaddr = some (elements chip.isLocal chunk.cb chunk.burst,
        ⟨linkControl chunk.cb,chunk.llRegion.paddr⟩) := by
    rw [writeChunk_eq hexact.alloc,hexact.vaddr,← hlen]
    refine decode_stored hlinked.linkLlp (by rw [hexact.paddr]; exact hpaddr) _ _ _ _ ?_
      (Nat.lt_succ_self _)
    intro e he
    refine ⟨htyped _ ?_,hlinked.dataLlp e he⟩
    have hmem := List.mem_map_of_mem (f := Element.burst) he
    rwa [elements_burst] at hmem
  have hlisted := listed_of_decode hdecode hlinked.dataCb hlinked.linkTcb
  rw [elements_burst] at hlisted
  change Listed _ _ _ _ chunk.llRegion.paddr at hlisted
  rw [hexact.paddr] at hlisted
  exact hlisted.shift fun i hi => hreach.inside _ m (by omega)

/-- Writing the list changes nothing outside of the region. -/
theorem writeChunk_through_outside {w : Aperture} {region : Region} (hreach : region.Reached w)
    {chunk : Chunk} (hexact : chunk.Exact region)
    (hsz : 24 * chunk.burst.length + 16 ≤ region.sz) (core : Core) (force32 : Bool) (chip : Chip)
    (m : Memory) {x : ℕ} (hx : x ∉ Set.Ico region.paddr (region.paddr + region.sz)) :
    w.through (core.writeChunk force32 chip chunk) m x = m x := by
  have hout : x ∉ Set.Ico region.paddr (region.paddr + (24 * chunk.burst.length + 16)) := by
    rw [Set.mem_Ico] at hx ⊢
    omega
  refine hreach.outside hout fun y hy => writeChunk_outside hexact.alloc core force32 chip _ ?_
  rw [hexact.vaddr]
  omega

end AkidaEdma.DwEdma
