import AkidaEdma.Engine.Machine

/-! # The execution of the lists

Without termination and aborts, the engine moves the bursts of the issued descriptors, each
channel in the order of issue, and nothing but these. The list of a running chunk stays as it was
written, since the lists of the channels and the data of the requests lie apart; and the elements
agree with the cycle state, which changes at the link of a chunk as the cycle bit does from one
chunk to the next.
-/
namespace AkidaEdma.Execution
open Transition Trace AkidaEdma.DwEdma AkidaEdma.Registers

def chunkBursts (xs : List Started) : List Burst := bursts (xs.map Started.chunk)

theorem chunkBursts_append (xs ys : List Started) :
    chunkBursts (xs ++ ys) = chunkBursts xs ++ chunkBursts ys := by
  rw [chunkBursts,List.map_append,bursts_append]
  rfl

theorem chunkBursts_singleton (x : Started) : chunkBursts [x] = x.chunk.burst :=
  bursts_singleton x.chunk

/-- A chunk that the engine can work through. -/
structure Fit (su : Setup) (S : Set Ch) (c : Ch) (k : Chunk) : Prop where
  exact : k.Exact (su.region c)
  room : k.burst.length ≤ su.llMax c
  clear : ∀ b ∈ k.burst, b.Typed ∧ Disjoint (b.near c.1) (su.lists S)

/-- A prepared descriptor that the engine can work through. -/
structure Workable (su : Setup) (S : Set Ch) (c : Ch) (d : Desc) : Prop where
  fit : ∀ k ∈ d.chunk, Fit su S c k
  cycled : Cycled su.mf d
  fresh : d.xferSz = 0
  cb : ∀ k x, d.chunk[k]? = some x → x.cb = (k % 2 == 0)

/-- Where the engine is with a channel: it has moved the bursts of the `done` chunks, and `j`
bursts of the running one, whose list is still there. The cycle state is that of the running
chunk, or else the other one than that of the last chunk. -/
structure Place (su : Setup) (c : Ch) (s : Machine) (done : List Started) (j : ℕ) : Prop where
  starts : (s.chan c).starts = done ++ (s.chan c).hw.running
  le : j ≤ (chunkBursts (s.chan c).hw.running).length
  moved : s.movedBy c = chunkBursts done ++ (chunkBursts (s.chan c).hw.running).take j
  pointer : (s.chan c).starts ≠ [] → s.llp su c = (su.region c).paddr + 24 * j
  cycle : ∀ y ∈ (s.chan c).starts.getLast?,
    s.cycle su c = if (s.chan c).hw.running = [] then !y.chunk.cb else y.chunk.cb
  listed : ∀ x ∈ (s.chan c).hw.running,
    Listed s.bus.near (su.region c).paddr x.chunk.cb x.chunk.burst (su.region c).paddr

structure Lane (su : Setup) (S : Set Ch) (c : Ch) (s : Machine) : Prop where
  ordered : Ordered (s.chan c)
  setup : (s.chan c).chan.id = c.2 ∧ (s.chan c).chan.dir = c.1 ∧
    (s.chan c).chan.llMax = su.llMax c
  prepared : ∀ d, Event.prep d ∈ (s.chan c).log → Workable su S c d
  succession : Succession (Workable su S c) (s.chan c).starts.getLast? (s.chan c).chan
  place : ∃ done j, Place su c s done j

variable {su : Setup} {S : Set Ch} {c : Ch} {s : Machine}

theorem Setup.Laid.paddr_lt (hl : su.Laid S) (hc : c ∈ S) :
    (su.region c).paddr < 18446744073709551616 := by
  have hroom := hl.room c hc
  have hbelow := hl.below c hc
  omega

/-- The elements of a fitting chunk and its link lie in the area of the channel. -/
theorem Fit.room_le {k : Chunk} (h : Fit su S c k) (hl : su.Laid S) (hc : c ∈ S) :
    24 * k.burst.length + 16 ≤ (su.region c).sz := by
  have hroom := hl.room c hc
  have hle := h.room
  omega

theorem Fit.listed {k : Chunk} (h : Fit su S c k) (hl : su.Laid S) (hc : c ∈ S)
    {m m' : LittleEndian.Memory} (hm : Set.EqOn m' m (su.area c)) {p : ℕ}
    (hk : Listed m (su.region c).paddr k.cb k.burst p) :
    Listed m' (su.region c).paddr k.cb k.burst p := by
  have hroom := h.room_le hl hc
  exact hk.shift fun i hi => hm ⟨Nat.le_add_right _ _,by omega⟩

theorem prep_mem_log {chip : Chip} {s t : State} {op : Op} {d : Desc}
    (h : DwEdma.step chip s op = some t) (hd : Event.prep d ∈ t.log) :
    Event.prep d ∈ s.log ∨ ∃ x, op = .prep x ∧ deviceTransfer chip s.chan s.nextVd x = some d := by
  have hcall : ∀ (s : State) r, Event.prep d ∈ (s.call r).log → Event.prep d ∈ s.log := by
    intro s r hd
    simp only [State.call,List.mem_append,List.mem_map] at hd
    rcases hd with (hd | ⟨e,_,he⟩) | ⟨x,_,he⟩
    · exact hd
    · contradiction
    · contradiction
  cases op with
  | config cf => cases h; exact .inl hd
  | prep x =>
    cases h
    rcases prep_cases chip x s with he | ⟨e,hde,he⟩ <;> rw [he] at hd
    · exact .inl hd
    · rcases List.mem_append.mp hd with hd | hd
      · exact .inl hd
      · cases List.mem_singleton.mp hd
        exact .inr ⟨x,rfl,hde⟩
  | submit vd =>
    obtain ⟨e,_,_,rfl⟩ := step_submit_some h
    exact .inl (by simpa using hd)
  | issuePending =>
    cases h
    left
    unfold State.issuePending at hd
    split at hd
    · simpa using hcall _ _ hd
    · exact hd
  | pause => cases h; exact .inl hd
  | resume => cases h; exact .inl (hcall _ _ hd)
  | terminateAll st => cases h; exact .inl hd
  | finish irq =>
    obtain ⟨x,rest,_,rfl⟩ := step_finish_some h
    exact .inl hd
  | interrupt =>
    obtain ⟨x,irq,rest,_,rfl⟩ := step_interrupt_some h
    left
    cases irq <;> simpa using hcall _ _ hd

/-- The state that the start of the next chunk leaves is the cycle bit of the chunk. -/
theorem Next.agrees {last : Option Started} {x : Started}
    (h : Next (Workable su S c) last x) {b : Bool} (hb : ∀ y ∈ last, b = !y.chunk.cb) :
    (if su.mf = .hdmaNative ∨ x.first = true then true else b) = x.chunk.cb := by
  obtain ⟨d,k,hd,hget,hfirst,hfollows⟩ := h
  have hk : k < d.chunk.length := (List.getElem?_eq_some_iff.mp hget).1
  rw [hd.cb k _ hget]
  split
  · rename_i hprog
    have heven : k % 2 = 0 := by
      by_contra hodd
      by_cases hmf : su.mf = .hdmaNative
      · have hlen := hd.cycled.1 hmf
        omega
      · have hzero := hprog.resolve_left hmf
        rw [hfirst,beq_iff_eq] at hzero
        exact hd.cycled.2 hmf k hk (by omega) hzero
    rw [heven]
    rfl
  · rename_i hprog
    have hne : k ≠ 0 := by
      rintro rfl
      exact hprog (Or.inr hfirst)
    -- the chunk before it was the last one
    obtain ⟨y,hy,hprev⟩ := hfollows hne
    rw [hb y hy,hd.cb _ _ hprev,Bool.eq_iff_iff]
    simp only [Bool.not_eq_true',beq_eq_false_iff_ne,beq_iff_eq]
    omega

/-- Every started chunk is one of a prepared descriptor. -/
theorem started_fit {t : State} (h : Steady t)
    (hp : ∀ d, Event.prep d ∈ t.log → Workable su S c d) {x : Started}
    (hx : x ∈ t.starts) : Fit su S c x.chunk := by
  obtain ⟨pre,cur,used,hprog⟩ := h.progress
  have hmem := hprog.prefix_plan.subset (List.mem_map_of_mem (f := Started.key) hx)
  obtain ⟨d,hd,hkey⟩ := List.mem_flatMap.mp hmem
  obtain ⟨k,hk,he⟩ := List.mem_map.mp hkey
  have hchunk : k = x.chunk := congrArg Prod.snd he
  rw [← hchunk]
  exact (hp d (h.origin d (List.mem_append_right _ hd)).1).fit k hk

theorem Lane.fit (h : Lane su S c s) {x : Started} (hx : x ∈ (s.chan c).starts) :
    Fit su S c x.chunk := started_fit h.ordered.1 h.prepared hx

theorem Lane.running_fit (h : Lane su S c s) {x : Started} (hx : x ∈ (s.chan c).hw.running) :
    Fit su S c x.chunk := by
  obtain ⟨done,j,hp⟩ := h.place
  exact h.fit (by rw [hp.starts]; exact List.mem_append_right _ hx)

/-- What happens elsewhere. -/
theorem Lane.frame {s' : Machine} (h : Lane su S c s) (hl : su.Laid S) (hc : c ∈ S)
    (hchan : s'.chan c = s.chan c) (hmoved : s'.movedBy c = s.movedBy c)
    (hllp : s'.llp su c = s.llp su c) (hcycle : s'.cycle su c = s.cycle su c)
    (hnear : Set.EqOn s'.bus.near s.bus.near (su.area c)) : Lane su S c s' := by
  obtain ⟨done,j,hp⟩ := h.place
  refine ⟨?_,?_,?_,?_,done,j,?_⟩ <;> try rw [hchan]
  · exact h.ordered
  · exact h.setup
  · exact h.prepared
  · exact h.succession
  · constructor <;> try rw [hchan]
    · exact hp.starts
    · exact hp.le
    · rw [hmoved]
      exact hp.moved
    · rw [hllp]
      exact hp.pointer
    · rw [hcycle]
      exact hp.cycle
    · intro x hx
      exact (h.running_fit hx).listed hl hc hnear (hp.listed x hx)

/-- An operation starts the next chunk or none. -/
theorem Lane.succeeds {t : State} {op : Op} (h : Lane su S c s)
    (he : DwEdma.step su.chip (s.chan c) op = some t) :
    Succeeds (Workable su S c) (s.chan c).starts.getLast? (t.chan,opStart (s.chan c) op) := by
  refine step_succeeds h.succession (fun d hd => ?_) he
  have hprep := h.ordered.1.origin d (List.mem_append_left _ (List.mem_append_left _ hd))
  have hwork := h.prepared d hprep.1
  exact ⟨hwork,hwork.fresh⟩

/-- The state of a channel after an operation on it. -/
theorem Lane.operate {t : State} {op : Op} (h : Lane su S c s) (hl : su.Laid S) (hc : c ∈ S)
    (hg : Allowed su S s (.op c op)) (he : DwEdma.step su.chip (s.chan c) op = some t) :
    Ordered t ∧ (t.chan.id = c.2 ∧ t.chan.dir = c.1 ∧ t.chan.llMax = su.llMax c) ∧
      (∀ d, Event.prep d ∈ t.log → Workable su S c d) ∧
      Succession (Workable su S c) t.starts.getLast? t.chan := by
  obtain ⟨_,hund,hallowed⟩ := hg
  obtain ⟨hid,hdir,hmax⟩ := h.setup
  obtain ⟨hid',hdir',hmax'⟩ := step_setup he
  refine ⟨step_ordered h.ordered hund he,⟨by rw [hid',hid],by rw [hdir',hdir],by rw [hmax',hmax]⟩,
    fun d hd => ?_,(h.succeeds he).step he⟩
  rcases prep_mem_log he hd with hd | ⟨x,hop,hx⟩
  · exact h.prepared d hd
  · obtain ⟨hcycled,hclear⟩ := hallowed x d hop hx
    have hsome := hl.some c hc
    have hbuilt := deviceTransfer_built (by rw [hmax]; exact hsome) hx
    have hregion : (s.chan c).chan.region su.chip = su.region c := by
      rw [Chan.region,Setup.region,hdir,hid]
    refine ⟨fun k hk => ⟨hregion ▸ hbuilt.exact k hk,hmax ▸ hbuilt.room k hk,fun b hb => ?_⟩,
      hcycled,hbuilt.fresh.xfer_eq,hbuilt.cb⟩
    exact hclear b (List.mem_flatten.mpr ⟨k.burst,List.mem_map_of_mem hk,hb⟩)

/-- The channel is at a new place after an operation on it. -/
theorem Lane.placed {s' : Machine} {t : State} {op : Op} (h : Lane su S c s) (hl : su.Laid S)
    (hc : c ∈ S) (hg : Allowed su S s (.op c op))
    (he : DwEdma.step su.chip (s.chan c) op = some t) (hsame : s'.chan c = t)
    {done : List Started} {j : ℕ} (hp : Place su c s' done j) : Lane su S c s' := by
  obtain ⟨hord,hsetup,hprep,hsucc⟩ := h.operate hl hc hg he
  refine ⟨?_,?_,?_,?_,done,j,hp⟩ <;> rw [hsame]
  · exact hord
  · exact hsetup
  · exact hprep
  · exact hsucc

/-! ## The moves of a channel -/

theorem movedBy_append (c' : Ch) (b : Burst) (s' : Machine) (h : s'.moved = s.moved ++ [(c',b)]) :
    s'.movedBy c = s.movedBy c ++ if c' = c then [b] else [] := by
  unfold Machine.movedBy
  rw [h,List.filterMap_append]
  split <;> simp [*]

/-- Nothing but the area of the channel changes when its list is written. -/
theorem start_near (hl : su.Laid S) (hc : c ∈ S) {x : Started} (hx : Fit su S c x.chunk)
    {y : ℕ} (hy : y ∉ su.area c) : (s.start su c x).bus.near y = s.bus.near y :=
  writeChunk_through_outside (hl.reached c hc) hx.exact (hx.room_le hl hc) _ _ _ _ hy

theorem start_llp (hl : su.Laid S) (hc : c ∈ S) {x : Started} (hx : Fit su S c x.chunk)
    (c' : Ch) : (s.start su c x).llp su c' =
      if x.first = true ∧ c' = c then (su.region c).paddr else s.llp su c' := by
  have hpaddr : x.chunk.llRegion.paddr < 18446744073709551616 := by
    rw [hx.exact.paddr]
    exact hl.paddr_lt hc
  have hllp := llp_coreStart su.mf su.chip.isLocal c.1 c'.1 c.2 c'.2 hpaddr x.first s.regs
  rw [hx.exact.paddr] at hllp
  simpa only [Machine.llp,Machine.start,hx.exact.paddr,Prod.ext_iff] using hllp

theorem start_cycle (c' : Ch) (x : Started) : (s.start su c x).cycle su c' =
    if (su.mf = .hdmaNative ∨ x.first = true) ∧ c' = c then true else s.cycle su c' :=
  cycleState_coreStart su.mf su.chip.isLocal c.1 c'.1 c.2 c'.2 x.chunk.llRegion.paddr x.first s.regs

theorem Lane.start {t : State} {op : Op} {x : Started} (h : Lane su S c s) (hl : su.Laid S)
    (hc : c ∈ S) (hg : Allowed su S s (.op c op)) (hop : ∀ irq, op ≠ .finish irq)
    (he : DwEdma.step su.chip (s.chan c) op = some t) (hx : opStart (s.chan c) op = some x) :
    Fit su S c x.chunk ∧
      Lane su S c ((s.start su c x).put c t) := by
  obtain ⟨hord,_,hprep,_⟩ := h.operate hl hc hg he
  have hnext := (h.succeeds he).next x hx
  obtain ⟨done,j,hp⟩ := h.place
  have hrunning := step_running he hop
  have hstarts := step_starts he
  rw [hx,Option.toList_some] at hrunning hstarts
  have hfit : Fit su S c x.chunk := started_fit hord.1 hprep (by
    rw [hstarts]
    exact List.mem_append_right _ (List.mem_singleton_self x))
  -- the started chunk is the only one outstanding
  have hquiet : (s.chan c).hw.running = [] := by
    have hout : t.hw.outstanding = t.hw.pending.map Prod.fst ++ (s.chan c).hw.running ++ [x] := by
      rw [Hw.outstanding,hrunning,List.append_assoc]
    obtain ⟨_,_,y,hy⟩ := hord.1.busy (by rw [hout]; simp)
    rw [hout] at hy
    have hlen := congrArg List.length hy
    simp only [List.length_append,List.length_singleton,List.length_map] at hlen
    exact List.length_eq_zero_iff.mp (by omega)
  refine ⟨hfit,h.placed hl hc hg he (put_same c t _) (?_ : Place su c _ (s.chan c).starts 0)⟩
  have hmoved := hp.moved
  have hstarted := hp.starts
  have hcycle := hp.cycle
  rw [hquiet,List.append_nil] at hstarted
  rw [hquiet] at hcycle hmoved hrunning
  constructor <;> try rw [put_same]
  · rw [hstarts,hrunning,List.nil_append]
  · exact Nat.zero_le _
  · change s.movedBy c = _
    rw [List.take_zero,List.append_nil,hstarted,hmoved,chunkBursts,chunkBursts]
    simp [bursts]
  · intro _
    change (s.start su c x).llp su c = _
    rw [start_llp hl hc hfit]
    split
    · rfl
    · rename_i hfirst
      have hne : (s.chan c).starts ≠ [] := by
        intro hnil
        rw [hnil] at hnext
        exact hfirst ⟨Next.first hnext,rfl⟩
      have hle := hp.le
      have hptr := hp.pointer hne
      rw [hquiet] at hle
      have hj : j = 0 := Nat.le_zero.mp hle
      rw [hptr,hj]
  · intro y hy
    rw [hstarts,List.getLast?_concat] at hy
    cases hy
    rw [hrunning,List.nil_append,if_neg (List.cons_ne_nil _ _)]
    have hagrees := Next.agrees hnext hcycle
    change (s.start su c x).cycle su c = _
    rw [start_cycle,← hagrees]
    simp only [and_true]
  · intro y hy
    rw [hrunning,List.nil_append,List.mem_singleton] at hy
    rw [hy]
    exact writeChunk_listed (hl.reached c hc) hfit.exact (fun b hb => (hfit.clear b hb).1)
      (hfit.room_le hl hc) (hl.paddr_lt hc) _ _ _ _

theorem Lane.idle {t : State} {op : Op} (h : Lane su S c s) (hl : su.Laid S)
    (hc : c ∈ S) (hg : Allowed su S s (.op c op)) (hop : ∀ irq, op ≠ .finish irq)
    (he : DwEdma.step su.chip (s.chan c) op = some t) (hx : opStart (s.chan c) op = none) :
    Lane su S c (s.put c t) := by
  obtain ⟨done,j,hp⟩ := h.place
  have hrunning := step_running he hop
  have hstarts := step_starts he
  rw [hx,Option.toList_none,List.append_nil] at hrunning hstarts
  refine h.placed hl hc hg he (put_same c t s) (?_ : Place su c _ done j)
  constructor <;> try rw [put_same]
  · rw [hstarts,hrunning]
    exact hp.starts
  · rw [hrunning]
    exact hp.le
  · rw [hrunning]
    exact hp.moved
  · rw [hstarts]
    exact hp.pointer
  · rw [hstarts,hrunning]
    exact hp.cycle
  · rw [hrunning]
    exact hp.listed

theorem Lane.alone (h : Lane su S c s) {x : Started} {rest : List Started}
    (hr : (s.chan c).hw.running = x :: rest) : rest = [] := by
  have hout : (s.chan c).hw.outstanding = (s.chan c).hw.pending.map Prod.fst ++ x :: rest := by
    rw [Hw.outstanding,hr]
  obtain ⟨_,_,y,hy⟩ := h.ordered.1.busy (by rw [hout]; simp)
  rw [hout] at hy
  have hlen := congrArg List.length hy
  simp only [List.length_append,List.length_cons,List.length_map,List.length_nil] at hlen
  exact List.length_eq_zero_iff.mp (by omega)

/-- The engine in the list of the running chunk: at a data element of its own cycle or, behind the
last one, at the link. -/
theorem Lane.running (h : Lane su S c s) {x : Started} {rest : List Started}
    (hr : (s.chan c).hw.running = x :: rest) : ∃ done j, (s.chan c).starts = done ++ [x] ∧
      s.movedBy c = chunkBursts done ++ x.chunk.burst.take j ∧
      s.llp su c = (su.region c).paddr + 24 * j ∧ rest = [] ∧ s.cycle su c = x.chunk.cb ∧
      Listed s.bus.near (su.region c).paddr x.chunk.cb x.chunk.burst (su.region c).paddr ∧
      ((s.atLink su c = true ∧ j = x.chunk.burst.length) ∨
        (s.atLink su c = false ∧ s.owns su c = true ∧ ∃ b, x.chunk.burst[j]? = some b ∧
          (loadElement (s.llp su c) s.bus.near).burst = b)) := by
  obtain ⟨done,j,hstarts,hle,hmoved,hpointer,hcycle,hlisted⟩ := h.place
  have hrest := h.alone hr
  rw [hr,hrest] at hstarts hmoved hle
  rw [chunkBursts_singleton] at hmoved hle
  have hptr := hpointer (by rw [hstarts]; simp)
  have hlist := hlisted x (by rw [hr]; exact List.mem_cons_self)
  have hstate := hcycle x (by rw [hstarts,List.getLast?_concat]; rfl)
  rw [hr,if_neg (List.cons_ne_nil _ _)] at hstate
  refine ⟨done,j,hstarts,hmoved,hptr,hrest,hstate,hlist,?_⟩
  rcases Nat.lt_or_eq_of_le hle with hlt | rfl
  · right
    have hb := List.getElem?_eq_getElem hlt
    obtain ⟨hbit,hcb,hburst⟩ := hlist.burst j _ hb
    rw [← hptr] at hbit hcb hburst
    refine ⟨hbit,?_,_,hb,hburst⟩
    rw [Machine.owns,hcb,hstate,beq_self_eq_true]
  · left
    have hbit := hlist.link
    rw [← hptr] at hbit
    exact ⟨hbit,rfl⟩

/-- The engine stops nowhere but at the link. -/
theorem Lane.halt_atLink {s' : Machine} (h : Lane su S c s) (he : s.halt su c = some s') :
    s.atLink su c = true := by
  unfold Machine.halt at he
  split at he
  · rename_i hat
    obtain ⟨t,ht,_⟩ := Option.map_eq_some_iff.mp he
    obtain ⟨x,rest,hr,_⟩ := step_finish_some ht
    obtain ⟨done,j,_,_,_,_,_,_,⟨hlink,_⟩ | ⟨_,howns,_⟩⟩ := h.running hr
    · exact hlink
    · exact hat.resolve_right (by rw [howns]; decide)
  · contradiction

theorem halt_some {s' : Machine} (h : s.halt su c = some s') (hat : s.atLink su c = true) :
    ∃ t, DwEdma.step su.chip (s.chan c) (.finish .done) = some t ∧
      s' = { s.put c t with regs := s.follow su c } := by
  rw [Machine.halt,if_pos (Or.inl hat)] at h
  obtain ⟨t,ht,rfl⟩ := Option.map_eq_some_iff.mp h
  exact ⟨t,ht,by rw [if_pos hat]⟩

theorem follow_llp_other {c' : Ch} (h : c' ≠ c) (s : Machine) :
    llp su.mf c'.1 c'.2 (s.follow su c) = s.llp su c' := by
  unfold Machine.follow
  dsimp only
  split
  · rw [llp_toggleCycle]
    exact llp_setLlp_other h _ s.regs
  · exact llp_setLlp_other h _ s.regs

theorem follow_cycle_other {c' : Ch} (h : c' ≠ c) (s : Machine) :
    cycleState su.mf c'.1 c'.2 (s.follow su c) = s.cycle su c' := by
  unfold Machine.follow
  dsimp only
  split
  · rw [cycleState_toggleCycle_other h,cycleState_setLlp]
    rfl
  · exact cycleState_setLlp _ _ _ _ _ _ s.regs

theorem Lane.halt {t : State} (h : Lane su S c s) (hl : su.Laid S) (hc : c ∈ S)
    (hat : s.atLink su c = true)
    (he : DwEdma.step su.chip (s.chan c) (.finish .done) = some t) :
    Lane su S c { s.put c t with regs := s.follow su c } := by
  have hg : Allowed su S s (.op c (.finish .done)) := by
    refine ⟨hc,rfl,fun x d hop => ?_⟩
    contradiction
  have hstarts := step_starts he
  obtain ⟨x,rest,hr,ht⟩ := step_finish_some he
  obtain ⟨done,j,hdone,hmoved,hptr,hrest,hcycle,hlist,⟨_,hj⟩ | ⟨hdata,_⟩⟩ := h.running hr
  · have hrunning : t.hw.running = [] := by rw [ht]; exact hrest
    have hend : s.llp su c = (su.region c).paddr + 24 * x.chunk.burst.length := by rw [hptr,hj]
    have hfollow : s.follow su c =
        toggleCycle su.mf c.1 c.2 (setLlp su.mf c.1 c.2 (su.region c).paddr s.regs) := by
      have htoggle : (loadLink (s.llp su c) s.bus.near).control.getLsbD 1 = true := by
        rw [hend]
        exact hlist.toggle
      have hpointer : (loadLink (s.llp su c) s.bus.near).pointer = (su.region c).paddr := by
        rw [hend]
        exact hlist.pointer
      rw [Machine.follow,htoggle,hpointer,if_pos rfl]
    let s' : Machine := { s.put c t with regs := s.follow su c }
    have hsame : s'.chan c = t := put_same c t s
    change Lane su S c s'
    refine h.placed hl hc hg he hsame (?_ : Place su c s' (done ++ [x]) 0)
    constructor <;> try rw [hsame]
    · rw [hstarts,hrunning,hdone]
      rfl
    · exact Nat.zero_le _
    · change s.movedBy c = _
      rw [hmoved,hj,List.take_length,List.take_zero,List.append_nil,chunkBursts_append,
        chunkBursts_singleton]
    · intro _
      change Registers.llp su.mf c.1 c.2 (s.follow su c) = _
      rw [hfollow,llp_toggleCycle]
      exact llp_setLlp (hl.paddr_lt hc) s.regs
    · intro y hy
      have hlast : x = y := by
        rw [hstarts,hdone] at hy
        simpa [opStart] using hy
      change cycleState su.mf c.1 c.2 (s.follow su c) = _
      rw [hfollow,cycleState_toggleCycle,cycleState_setLlp,hrunning,if_pos rfl,← hlast]
      exact congrArg not hcycle
    · rw [hrunning]
      exact fun y hy => absurd hy List.not_mem_nil
  · rw [hat] at hdata
    contradiction

/-- What a burst changes on the engine's side. -/
theorem move_near {dir : Dir} {b : Burst} {y : ℕ} (hy : y ∉ b.near dir) (m : Bus) :
    (m.move dir b).near y = m.near y := by
  cases dir with
  | write => rfl
  | read => exact Footprint.overwrite_outside (fun i => m.far (b.copy.src + i)) m.near hy

theorem element_some {s' : Machine} (h : s.element su c = some s') :
    (s.chan c).hw.running ≠ [] ∧ s.atLink su c = false ∧ s.owns su c = true ∧
      ∃ b, (loadElement (s.llp su c) s.bus.near).burst = b ∧ s' = { s with
        bus := s.bus.move c.1 b
        regs := setLlp su.mf c.1 c.2 (s.llp su c + 24) s.regs
        moved := s.moved ++ [(c,b)] } := by
  unfold Machine.element at h
  split at h
  · contradiction
  · rename_i hno
    obtain ⟨hr,hno⟩ := not_or.mp hno
    obtain ⟨hat,howns⟩ := not_or.mp hno
    exact ⟨hr,by simpa using hat,by simpa using howns,_,rfl,(Option.some.inj h).symm⟩

/-- The element that the engine takes is one of a fitting chunk. -/
theorem Lane.clear {s' : Machine} (h : Lane su S c s) (he : s.element su c = some s') :
    Disjoint ((loadElement (s.llp su c) s.bus.near).burst.near c.1) (su.lists S) := by
  obtain ⟨hr,hat,_⟩ := element_some he
  obtain ⟨x,rest,hr⟩ := List.exists_cons_of_ne_nil hr
  obtain ⟨done,j,_,_,_,_,_,_,⟨hlink,_⟩ | ⟨_,_,b,hb,hburst⟩⟩ := h.running hr
  · rw [hat] at hlink
    contradiction
  · rw [hburst]
    exact ((h.running_fit (by rw [hr]; exact List.mem_cons_self)).clear b
      (List.mem_of_getElem? hb)).2

theorem Lane.element {s' : Machine} (h : Lane su S c s) (hl : su.Laid S) (hc : c ∈ S)
    (he : s.element su c = some s') : Lane su S c s' := by
  have hclear := h.clear he
  obtain ⟨hr,hat,_,b,hload,rfl⟩ := element_some he
  obtain ⟨x,rest,hr⟩ := List.exists_cons_of_ne_nil hr
  have hfit := h.running_fit (x := x) (by rw [hr]; exact List.mem_cons_self)
  obtain ⟨done,j,hdone,hmoved,hptr,hrest,hcycle,hlist,⟨hlink,_⟩ | ⟨_,_,b',hb,hburst⟩⟩ := h.running hr
  · rw [hat] at hlink
    contradiction
  · obtain rfl : b = b' := hload.symm.trans hburst
    have hj : j < x.chunk.burst.length := (List.getElem?_eq_some_iff.mp hb).1
    have hroom := hfit.room_le hl hc
    have hbelow := hl.below c hc
    refine ⟨h.ordered,h.setup,h.prepared,h.succession,done,j + 1,?_⟩
    constructor
    · rw [hr,hrest]
      exact hdone
    · rw [hr,hrest,chunkBursts_singleton]
      exact hj
    · rw [movedBy_append c b _ rfl,if_pos rfl,hmoved,hr,hrest,chunkBursts_singleton,
        List.take_add_one,hb,List.append_assoc]
      rfl
    · intro _
      change Registers.llp su.mf c.1 c.2 (setLlp su.mf c.1 c.2 _ s.regs) = _
      rw [llp_setLlp (by omega),hptr]
      omega
    · intro y hy
      have hlast : x = y := by
        rw [hdone,List.getLast?_concat] at hy
        exact Option.some.inj hy
      change cycleState su.mf c.1 c.2 (setLlp su.mf c.1 c.2 _ s.regs) = _
      rw [cycleState_setLlp,hr,if_neg (List.cons_ne_nil _ _),← hlast]
      exact hcycle
    · intro y hy
      rw [hr,hrest,List.mem_singleton] at hy
      rw [hy]
      refine hfit.listed hl hc (fun z hz => move_near ?_ s.bus) hlist
      rw [← hload]
      exact fun hin => Set.disjoint_left.mp hclear hin ⟨c,hc,hz⟩

/-! ## All channels -/

/-- The bursts in the order in which the engine moved them. -/
def Machine.transfers (s : Machine) : List (Dir × Burst) := s.moved.map fun m => (m.1.1,m.2)

/-- Every channel is in its lane, and the memories are what the bursts made of `bus`. -/
structure Running (su : Setup) (S : Set Ch) (bus : Bus) (s : Machine) : Prop where
  lane : ∀ c ∈ S, Lane su S c s
  bus : (bus.moves s.transfers).Agrees (su.lists S) s.bus

theorem lane_init (regs : RegFile) (bus : Bus) :
    Lane su S c (Machine.init su regs bus) where
  ordered := ordered_init c.2 c.1 (su.llMax c)
  setup := ⟨rfl,rfl,rfl⟩
  prepared := fun d hd => absurd hd (by simp [Machine.init,State.init])
  succession := succession_init c.2 c.1 (su.llMax c)
  place := by
    refine ⟨[],0,rfl,Nat.zero_le _,rfl,fun h => absurd rfl h,fun y hy => ?_,?_⟩
    · contradiction
    exact fun x hx => absurd hx (by simp [Machine.init,State.init])

theorem running_init (regs : RegFile) (bus : Bus) :
    Running su S bus (Machine.init su regs bus) :=
  ⟨fun _ _ => lane_init regs bus,.refl _ bus⟩

theorem area_subset (hc : c ∈ S) : su.area c ⊆ su.lists S := fun _ hx => ⟨c,hc,hx⟩

theorem operate_some {s' : Machine} {op : Op} (hg : Allowed su S s (.op c op))
    (h : s.operate su c op = some s') : (∀ irq, op ≠ .finish irq) ∧
      ∃ t, DwEdma.step su.chip (s.chan c) op = some t ∧
        s' = ((opStart (s.chan c) op).elim s (s.start su c)).put c t := by
  unfold Machine.operate at h
  split at h
  · contradiction
  · rename_i hop
    obtain ⟨t,ht,rfl⟩ := Option.map_eq_some_iff.mp h
    refine ⟨?_,t,ht,rfl⟩
    rintro irq rfl
    have hirq : irq = .done := hg.2.1
    rw [hirq] at hop
    exact hop rfl

theorem lanes_operate {s' : Machine} {op : Op} (h : ∀ c ∈ S, Lane su S c s)
    (hl : su.Laid S) (hg : Allowed su S s (.op c op)) (he : s.operate su c op = some s') :
    (∀ c ∈ S, Lane su S c s') ∧ s'.moved = s.moved ∧ s.bus.Agrees (su.lists S) s'.bus := by
  have hc : c ∈ S := hg.1
  have hlane := h c hc
  obtain ⟨hop,t,ht,rfl⟩ := operate_some hg he
  cases hx : opStart (s.chan c) op with
  | none =>
    refine ⟨fun c' hc' => ?_,rfl,.refl _ _⟩
    by_cases hcc : c' = c
    · rw [hcc]
      exact hlane.idle hl hc hg hop ht hx
    · exact (h c' hc').frame hl hc' (put_other hcc t s) rfl rfl rfl fun _ _ => rfl
  | some x =>
    obtain ⟨hfit,hstart⟩ := hlane.start hl hc hg hop ht hx
    refine ⟨fun c' hc' => ?_,rfl,rfl,fun y hy => start_near hl hc hfit
      fun hin => hy (area_subset hc hin)⟩
    by_cases hcc : c' = c
    · rw [hcc]
      exact hstart
    · refine (h c' hc').frame hl hc' (put_other hcc t _) rfl ?_ ?_ fun y hy => ?_
      · refine (start_llp hl hc hfit c').trans (if_neg ?_)
        exact fun hboth => hcc hboth.2
      · refine (start_cycle c' x).trans (if_neg ?_)
        exact fun hboth => hcc hboth.2
      · exact start_near hl hc hfit
          fun hin => Set.disjoint_left.mp (hl.apart c' hc' c hc hcc) hy hin

theorem lanes_halt {s' : Machine} (h : ∀ c ∈ S, Lane su S c s) (hl : su.Laid S) (hc : c ∈ S)
    (he : s.halt su c = some s') :
    (∀ c ∈ S, Lane su S c s') ∧ s'.moved = s.moved ∧ s.bus.Agrees (su.lists S) s'.bus := by
  have hat := (h c hc).halt_atLink he
  obtain ⟨t,ht,rfl⟩ := halt_some he hat
  refine ⟨fun c' hc' => ?_,rfl,.refl _ _⟩
  by_cases hcc : c' = c
  · rw [hcc]
    exact (h c hc).halt hl hc hat ht
  · exact (h c' hc').frame hl hc' (put_other hcc t s) rfl (follow_llp_other hcc s)
      (follow_cycle_other hcc s) fun _ _ => rfl

theorem lanes_element {s' : Machine} (h : ∀ c ∈ S, Lane su S c s) (hl : su.Laid S)
    (hc : c ∈ S) (he : s.element su c = some s') : ∀ c ∈ S, Lane su S c s' := by
  have hclear := (h c hc).clear he
  obtain ⟨_,_,_,b,hload,hs'⟩ := element_some he
  rw [hload] at hclear
  intro c' hc'
  by_cases hcc : c' = c
  · rw [hcc]
    exact (h c hc).element hl hc he
  · rw [hs']
    refine (h c' hc').frame hl hc' rfl ?_ (llp_setLlp_other hcc _ s.regs)
      (cycleState_setLlp _ _ _ _ _ _ s.regs) ?_
    · rw [movedBy_append c b _ rfl,if_neg (Ne.symm hcc),List.append_nil]
    · exact fun y hy => move_near
        (fun hin => Set.disjoint_left.mp hclear hin (area_subset hc' hy)) s.bus

theorem running_same {bus : Bus} {s' : Machine} (h : Running su S bus s)
    (hs : (∀ c ∈ S, Lane su S c s') ∧ s'.moved = s.moved ∧ s.bus.Agrees (su.lists S) s'.bus) :
    Running su S bus s' := by
  obtain ⟨hlanes,hmoved,hbus⟩ := hs
  refine ⟨hlanes,?_⟩
  rw [Machine.transfers,hmoved]
  exact h.bus.trans hbus

theorem running_element {bus : Bus} {s' : Machine} (h : Running su S bus s) (hl : su.Laid S)
    (hc : c ∈ S) (he : s.element su c = some s') : Running su S bus s' := by
  have hclear := (h.lane c hc).clear he
  refine ⟨lanes_element h.lane hl hc he,?_⟩
  obtain ⟨_,_,_,b,hload,hs'⟩ := element_some he
  rw [hload] at hclear
  have hmoves : bus.moves s'.transfers = (bus.moves s.transfers).move c.1 b := by
    rw [hs']
    simp only [Machine.transfers,List.map_append,moves_append]
    rfl
  rw [hmoves,hs']
  exact h.bus.move hclear

theorem step_lanes {bus : Bus} {s' : Machine} {m : Move} (hl : su.Laid S)
    (h : Running su S bus s) (hg : Allowed su S s m) (he : s.step su m = some s') :
    Running su S bus s' := by
  cases m with
  | op c op => exact running_same h (lanes_operate h.lane hl hg he)
  | element c => exact running_element h hl hg he
  | halt c => exact running_same h (lanes_halt h.lane hl hg he)

/-! ## What a run has moved -/

theorem plan_chunks (ds : List Desc) : (plan ds).map Prod.snd = ds.flatMap Desc.chunk := by
  induction ds with
  | nil => rfl
  | cons d ds ih =>
    have hcons : plan (d :: ds) = d.chunk.map (fun k => (d.vd,k)) ++ plan ds := rfl
    rw [hcons,List.map_append,ih,List.flatMap_cons,List.map_map]
    congr 1
    exact List.map_id _

theorem chunkBursts_keys (xs : List Started) :
    chunkBursts xs = bursts ((xs.map Started.key).map Prod.snd) := by
  rw [chunkBursts,List.map_map]
  rfl

theorem bursts_prefix {ks ls : List Chunk} (h : ks <+: ls) : bursts ks <+: bursts ls := by
  obtain ⟨ms,rfl⟩ := h
  rw [bursts_append]
  exact List.prefix_append _ _

/-- Chunks that were done are moved. -/
theorem Lane.dones_prefix (h : Lane su S c s) : ∃ j, s.movedBy c =
    chunkBursts (dones (s.chan c).log) ++ (chunkBursts ((s.chan c).hw.pending.map Prod.fst) ++
      (chunkBursts (s.chan c).hw.running).take j) := by
  obtain ⟨done,j,hp⟩ := h.place
  obtain ⟨pre,cur,used,hprog⟩ := h.ordered.1.progress
  have hdone : done = dones (s.chan c).log ++ (s.chan c).hw.pending.map Prod.fst := by
    have hall := hp.starts.symm.trans hprog.done
    rw [Hw.outstanding,← List.append_assoc] at hall
    exact List.append_cancel_right hall
  refine ⟨j,?_⟩
  rw [hp.moved,hdone,chunkBursts_append,List.append_assoc]

theorem Lane.moved_prefix (h : Lane su S c s) :
    s.movedBy c <+: bursts ((issues (s.chan c).log).flatMap Desc.chunk) := by
  obtain ⟨done,j,hp⟩ := h.place
  obtain ⟨pre,cur,used,hprog⟩ := h.ordered.1.progress
  have hstarted : s.movedBy c <+: chunkBursts (s.chan c).starts := by
    rw [hp.moved,hp.starts,chunkBursts_append]
    exact (List.prefix_append_right_inj _).mpr (List.take_prefix j _)
  refine hstarted.trans ?_
  rw [chunkBursts_keys,← plan_chunks]
  exact bursts_prefix (hprog.prefix_plan.map Prod.snd)

/-- A descriptor is found at one place of a list whose identities are distinct. -/
theorem split_unique {pre post pre' post' : List Desc} {d d' : Desc}
    (h : pre ++ d :: post = pre' ++ d' :: post') (hd : d.vd = d'.vd)
    (hnodup : ((pre ++ d :: post).map Desc.vd).Nodup) : pre = pre' ∧ d = d' := by
  have hat : ((pre ++ d :: post).map Desc.vd)[pre.length]? = some d.vd := by simp
  have hat' : ((pre ++ d :: post).map Desc.vd)[pre'.length]? = some d.vd := by
    rw [h,hd]
    simp
  have hlen : pre.length = pre'.length := by
    have hlt := (List.getElem?_eq_some_iff.mp hat).1
    exact (List.getElem?_inj hlt hnodup).mp (hat.trans hat'.symm)
  obtain ⟨hpre,hrest⟩ := List.append_inj h hlen
  exact ⟨hpre,(List.cons.inj hrest).1⟩

/-- The data of a completed descriptor, and of those issued before it, has been moved. -/
theorem Lane.completed_prefix (h : Lane su S c s) {pre post : List Desc} {d : Desc}
    (hi : issues (s.chan c).log = pre ++ d :: post) (hd : d.vd ∈ completions (s.chan c).log) :
    bursts ((pre ++ [d]).flatMap Desc.chunk) <+: s.movedBy c := by
  have hnodup := h.ordered.1.issues_nodup h.ordered.2.2
  obtain ⟨j,hmoved⟩ := h.dones_prefix
  obtain ⟨_,_,_,hprog⟩ := h.ordered.1.progress
  obtain ⟨e,he,hvd⟩ := List.mem_filterMap.mp hd
  obtain ⟨l,r,hlog⟩ := List.append_of_mem he
  cases e with
  | complete e =>
    have hev : e.vd = d.vd := Option.some.inj hvd
    -- when it was completed, its chunks were done
    obtain ⟨pre',e',post',hissued,hvd',_,hkeys⟩ := hprog.orderly l _ r hlog
    have hall : issues (s.chan c).log = pre' ++ e' :: (post' ++ issues r) := by
      rw [hlog]
      simp [issues] at hissued ⊢
      simp [hissued]
    rw [hi] at hall hnodup
    obtain ⟨rfl,rfl⟩ := split_unique hall (hvd'.trans hev).symm hnodup
    have hdone : dones (s.chan c).log = dones l ++ dones r := by
      rw [hlog]
      simp [dones]
    have hbursts : chunkBursts (dones l) = bursts ((pre ++ [d]).flatMap Desc.chunk) := by
      rw [chunkBursts_keys,hkeys,plan_chunks]
    rw [hmoved,hdone,chunkBursts_append,hbursts,List.append_assoc]
    exact List.prefix_append _ _
  | _ => contradiction

/-- No more elements are left than a list has room for. -/
theorem Lane.left (h : Lane su S c s) (hr : (s.chan c).hw.running ≠ []) : ∃ n,
    (chunkBursts (s.chan c).starts).length = (s.movedBy c).length + n ∧ n ≤ su.llMax c := by
  obtain ⟨x,rest,hx⟩ := List.exists_cons_of_ne_nil hr
  have hroom := (h.running_fit (x := x) (by rw [hx]; exact List.mem_cons_self)).room
  obtain ⟨done,j,hdone,hmoved,_⟩ := h.running hx
  refine ⟨x.chunk.burst.length - j,?_,by omega⟩
  rw [hdone,hmoved,chunkBursts_append,chunkBursts_singleton]
  simp only [List.length_append,List.length_take]
  omega

/-- The engine comes to the link of a running chunk by itself. -/
theorem Lane.reaches_link (hl : su.Laid S) (hc : c ∈ S) : ∀ n {s : Machine}, Lane su S c s →
    (s.chan c).hw.running ≠ [] →
    (chunkBursts (s.chan c).starts).length = (s.movedBy c).length + n →
    ∃ u, Runs (Machine.step su) (Allowed su S) s (List.replicate n (.element c)) u ∧
      u.atLink su c = true ∧ (u.halt su c).isSome := by
  intro n
  induction n with
  | zero =>
    intro s h hr hn
    obtain ⟨x,rest,hx⟩ := List.exists_cons_of_ne_nil hr
    obtain ⟨done,j,hdone,hmoved,_,_,_,_,⟨hat,_⟩ | ⟨_,_,b,hb,_⟩⟩ := h.running hx
    · refine ⟨s,.refl s,hat,?_⟩
      rw [Machine.halt,if_pos (Or.inl hat),step_finish_of su.chip .done hx]
      rfl
    · have hj : j < x.chunk.burst.length := (List.getElem?_eq_some_iff.mp hb).1
      rw [hdone,hmoved,chunkBursts_append,chunkBursts_singleton] at hn
      simp only [List.length_append,List.length_take] at hn
      omega
  | succ n ih =>
    intro s h hr hn
    obtain ⟨x,rest,hx⟩ := List.exists_cons_of_ne_nil hr
    obtain ⟨done,j,hdone,hmoved,_,_,_,_,⟨_,hj⟩ | ⟨hat,howns,b,hb,hload⟩⟩ := h.running hx
    · rw [hdone,hmoved,hj,chunkBursts_append,chunkBursts_singleton,List.take_length] at hn
      omega
    · let s' : Machine := { s with
        bus := s.bus.move c.1 b
        regs := setLlp su.mf c.1 c.2 (s.llp su c + 24) s.regs
        moved := s.moved ++ [(c,b)] }
      have he : s.element su c = some s' := by
        rw [Machine.element,if_neg (by rw [hat,howns]; simp [hr]),hload]
      have hmoved' : s'.movedBy c = s.movedBy c ++ [b] := by
        rw [movedBy_append c b s' rfl,if_pos rfl]
      obtain ⟨u,hu,hlink⟩ := ih (h.element hl hc he) hr (by
        change (chunkBursts (s.chan c).starts).length = _
        rw [hn,hmoved',List.length_append,List.length_singleton]
        omega)
      exact ⟨u,.step hc he hu,hlink⟩

/-- In every run without termination and aborts, whatever the interleaving of the channels, and
with requests whose chunks agree with the cycle state: a channel has moved the bursts of its
issued descriptors in order, as far as it got, and those of its completed descriptors for certain;
a chunk that runs comes to its link with the elements that are left, and the engine stops nowhere
else; and the memories are the initial ones with the bursts moved one after the other, but for the
lists themselves. -/
theorem executed (hl : su.Laid S) {regs : RegFile} {bus : Bus} {ms : List Move} {t : Machine}
    (hr : Runs (Machine.step su) (Allowed su S) (Machine.init su regs bus) ms t) :
    (∀ c ∈ S,
      (∃ j, t.movedBy c = chunkBursts (dones (t.chan c).log) ++
        (chunkBursts ((t.chan c).hw.pending.map Prod.fst) ++
          (chunkBursts (t.chan c).hw.running).take j)) ∧
      t.movedBy c <+: bursts ((issues (t.chan c).log).flatMap Desc.chunk) ∧
      (∀ pre d post, issues (t.chan c).log = pre ++ d :: post →
        d.vd ∈ completions (t.chan c).log →
          bursts ((pre ++ [d]).flatMap Desc.chunk) <+: t.movedBy c) ∧
      ((t.chan c).hw.running ≠ [] → ∃ n u, n ≤ su.llMax c ∧
        Runs (Machine.step su) (Allowed su S) t (List.replicate n (.element c)) u ∧
          u.atLink su c = true ∧ (u.halt su c).isSome) ∧
      ∀ u, t.halt su c = some u → t.atLink su c = true) ∧
    (bus.moves t.transfers).Agrees (su.lists S) t.bus := by
  have hrun := hr.invariant (fun _ _ _ h hg he => step_lanes hl h hg he)
    (running_init regs bus)
  refine ⟨fun c hc => ?_,hrun.bus⟩
  have hlane := hrun.lane c hc
  refine ⟨hlane.dones_prefix,hlane.moved_prefix,fun _ _ _ => hlane.completed_prefix,
    fun hrunning => ?_,fun _ => hlane.halt_atLink⟩
  obtain ⟨n,hn,hle⟩ := hlane.left hrunning
  obtain ⟨u,hu,hat,hhalt⟩ := Lane.reaches_link hl hc n hlane hrunning hn
  exact ⟨n,u,hle,hu,hat,hhalt⟩

/-- A write and a read channel, with room for one element each. -/
def oneElement : Setup where
  mf := .edma .unroll
  chip := ⟨false,fun _ => ⟨4096,8192,48⟩,fun _ => ⟨4144,8240,48⟩,none⟩
  force32 := true
  aperture := ⟨8192,4096,96⟩
  llMax := fun _ => 1

def bothWays (id : Fin 8) : Set Ch := {(.write,id),(.read,id)}

theorem oneElement_laid : oneElement.Laid (bothWays 0) := by
  constructor
  · rintro c (rfl | rfl) <;> exact ⟨by decide,by decide,by decide⟩
  · rintro c (rfl | rfl) <;> decide
  · rintro c (rfl | rfl) <;> decide
  · rintro c (rfl | rfl) <;> decide
  · rintro c (rfl | rfl) c' (rfl | rfl) h
    · exact absurd rfl h
    · exact Set.disjoint_left.mpr fun x hx hx' => by
        have hhi : x < 4144 := hx.2
        have hlo : 4144 ≤ x := hx'.1
        omega
    · exact Set.disjoint_left.mpr fun x hx hx' => by
        have hlo : 4144 ≤ x := hx.1
        have hhi : x < 4144 := hx'.2
        omega
    · exact absurd rfl h

/-- Two entries from the device, and two to it: two chunks each. -/
def fromDevice : Transfer := ⟨.devToMem,.scatterGather [⟨20480,4⟩,⟨24576,4⟩] 2⟩
def toDevice : Transfer := ⟨.memToDev,.scatterGather [⟨28672,4⟩,⟨32768,4⟩] 2⟩

def fromDeviceDesc : Desc :=
  ⟨0,[⟨[⟨100,20480,4⟩],1,true,⟨4096,8192,4⟩⟩,⟨[⟨104,24576,4⟩],1,false,⟨4096,8192,4⟩⟩],2,8,0⟩

def toDeviceDesc : Desc :=
  ⟨0,[⟨[⟨28672,200,4⟩],1,true,⟨4144,8240,4⟩⟩,⟨[⟨32768,204,4⟩],1,false,⟨4144,8240,4⟩⟩],2,8,0⟩

/-- The chunks of the two channels, in turns. -/
def inTurns (c e : Ch) : List Move :=
  [.op c (.config ⟨100,0⟩),.op e (.config ⟨0,200⟩),.op c (.prep fromDevice),.op e (.prep toDevice),
    .op c (.submit 0),.op c .issuePending,.element c,.op e (.submit 0),.op e .issuePending,.halt c,
    .element e,.op c .interrupt,.halt e,.element c,.op e .interrupt,.element e,.halt c,.halt e,
    .op c .interrupt,.op e .interrupt]

theorem oneElement_lists : oneElement.lists (bothWays 0) ⊆ Set.Ico 4096 4192 := by
  rintro x ⟨c,rfl | rfl,hlo,hhi⟩
  · exact ⟨hlo,Nat.lt_of_lt_of_le hhi (by decide)⟩
  · exact ⟨Nat.le_trans (by decide) hlo,hhi⟩

/-- Four bytes below the lists. -/
theorem below_lists {dir : Dir} {b : Burst} {a : ℕ} (hb : b.near dir = Set.Ico a (a + 4))
    (ha : a + 4 ≤ 4096) : Disjoint (b.near dir) (oneElement.lists (bothWays 0)) := by
  refine Set.disjoint_left.mpr fun x hx hin => ?_
  rw [hb] at hx
  have hlo := (oneElement_lists hin).1
  have hhi := hx.2
  omega

theorem inTurns_allowed (bus : Bus) (regs : RegFile) :
    Guarded (Machine.step oneElement) (Allowed oneElement (bothWays 0))
      (Machine.init oneElement regs bus) (inTurns (.write,0) (.read,0)) := by
  have hrest : ∀ s, ∀ m ∈ (inTurns (.write,0) (.read,0)).drop 4, Allowed oneElement (bothWays 0) s m := by
    intro s m hm
    simp only [inTurns,List.drop_succ_cons,List.drop_zero,List.mem_cons,List.not_mem_nil,
      or_false] at hm
    rcases hm with rfl | rfl | rfl | rfl | rfl | rfl | rfl | rfl | rfl | rfl | rfl | rfl | rfl |
      rfl | rfl | rfl <;>
      first
      | exact Or.inl rfl
      | exact Or.inr rfl
      | exact ⟨Or.inl rfl,trivial,fun x d hop => by contradiction⟩
      | exact ⟨Or.inr rfl,trivial,fun x d hop => by contradiction⟩
  refine ⟨⟨Or.inl rfl,trivial,fun x d hop => by contradiction⟩,fun s hs => ?_⟩
  refine ⟨⟨Or.inr rfl,trivial,fun x d hop => by contradiction⟩,fun s' hs' => ?_⟩
  cases hs
  cases hs'
  refine ⟨⟨Or.inl rfl,trivial,fun x d hop hd => ?_⟩,fun s hs => ?_⟩
  · cases hop
    have hdesc : fromDeviceDesc = d := Option.some.inj hd
    rw [← hdesc]
    refine ⟨by decide,fun b hb => ?_⟩
    rcases List.mem_pair.mp hb with rfl | rfl
    · exact ⟨⟨by decide,by decide,by decide⟩,below_lists rfl (by decide)⟩
    · exact ⟨⟨by decide,by decide,by decide⟩,below_lists rfl (by decide)⟩
  · cases hs
    refine ⟨⟨Or.inr rfl,trivial,fun x d hop hd => ?_⟩,fun t _ => guarded_of_forall hrest t⟩
    cases hop
    have hdesc : toDeviceDesc = d := Option.some.inj hd
    rw [← hdesc]
    refine ⟨by decide,fun b hb => ?_⟩
    rcases List.mem_pair.mp hb with rfl | rfl
    · exact ⟨⟨by decide,by decide,by decide⟩,below_lists rfl (by decide)⟩
    · exact ⟨⟨by decide,by decide,by decide⟩,below_lists rfl (by decide)⟩

def counted : Bus := ⟨fun x => BitVec.ofNat 8 x,fun x => BitVec.ofNat 8 (x / 4096)⟩

theorem inTurns_runs : (exec (Machine.step oneElement)
    (Machine.init oneElement (statusAt 0 0#32) counted) (inTurns (.write,0) (.read,0))).isSome = true := by
  decide +kernel

theorem inTurns_executed : ∃ t, Runs (Machine.step oneElement) (Allowed oneElement (bothWays 0))
      (Machine.init oneElement (statusAt 0 0#32) counted) (inTurns (.write,0) (.read,0)) t ∧
    t.movedBy (.write,0) = bursts fromDeviceDesc.chunk ∧
    t.movedBy (.read,0) = bursts toDeviceDesc.chunk ∧
    completions (t.chan (.write,0)).log = [0] ∧ completions (t.chan (.read,0)).log = [0] ∧
    (counted.moves t.transfers).Agrees (oneElement.lists (bothWays 0)) t.bus := by
  have hr := runs_of_exec (inTurns_allowed counted (statusAt 0 0#32))
    (Option.some_get inTurns_runs).symm
  exact ⟨_,hr,by decide +kernel,by decide +kernel,by decide +kernel,by decide +kernel,
    (executed oneElement_laid hr).2⟩

/-- The same engine behind the HDMA core, which takes no second chunk. -/
def oneElementHdma : Setup := { oneElement with mf := .hdmaNative }

def secondChunk (c : Ch) : List Move :=
  [.op c (.config ⟨100,0⟩),.op c (.prep fromDevice),.op c (.submit 0),.op c .issuePending,
    .element c,.halt c,.op c .interrupt,.halt c,.op c .interrupt]

theorem secondChunk_runs : (exec (Machine.step oneElementHdma)
    (Machine.init oneElementHdma (statusAt 0 0#32) counted) (secondChunk (.write,0))).isSome = true := by
  decide +kernel

/-- Of chunks that do not agree with the cycle state, the descriptor is completed all the same:
the engine stops at the elements of the second chunk and has not moved them. -/
theorem secondChunk_lost : ∃ t, exec (Machine.step oneElementHdma)
      (Machine.init oneElementHdma (statusAt 0 0#32) counted) (secondChunk (.write,0)) = some t ∧
    issues (t.chan (.write,0)).log = [fromDeviceDesc] ∧
    completions (t.chan (.write,0)).log = [0] ∧ t.movedBy (.write,0) = [⟨100,20480,4⟩] :=
  ⟨_,(Option.some_get secondChunk_runs).symm,by decide +kernel,by decide +kernel,
    by decide +kernel⟩

end AkidaEdma.Execution
