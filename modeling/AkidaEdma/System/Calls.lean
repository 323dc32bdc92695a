import AkidaEdma.System.Memory

/-! # What a call delivers

A chunk of a call is moved by one element of the engine, at a moment of the call; the buffers
between the user and the device hold it before or after this moment. So a call that succeeds has,
chunk by chunk, read or written the memory of the device, whatever the other calls do meanwhile.
-/
namespace AkidaEdma.DataPath
open Transition BlockCopy Footprint
open AkidaEdma.LittleEndian (Memory)
open AkidaEdma.Driver (ChanId DmaChan Xfer Choice Way Device Calm Calmed)
open AkidaEdma.Execution (Machine Setup Ch Move Lane)
open AkidaEdma.DwEdma (Op Burst Desc Bus bursts issues)

variable {w : Installation} {s t : System} {H : System → Prop}

/-- At a moment of `H` the device had the bytes of `f` at `p`. -/
def Held (H : System → Prop) (p len : ℕ) (f : Memory) : Prop :=
  ∃ u, H u ∧ ∀ i < len, u.machine.bus.near (p + i) = f i

theorem Held.congr {p len : ℕ} {f g : Memory} (h : Held H p len f) (hfg : ∀ i < len, g i = f i) :
    Held H p len g := by
  obtain ⟨u,hu,hf⟩ := h
  exact ⟨u,hu,fun i hi => (hf i hi).trans (hfg i hi).symm⟩

/-! ## A transfer -/

/-- The bytes of the transfer are those that the device had: in the mapped memory once the
engine is done with it, and in the buffer of the call once this is unmapped. -/
structure Brings (H : System → Prop) (s : System) (k : ℕ) (c : ChanId) (x : Xfer) : Prop where
  mapped : x.stage = .wait → (s.driver.chans c).Live → s.Settled c →
    Held H x.devAddr x.len fun i => s.machine.bus.far ((s.driver.chans c).dmaBuf + i)
  own : x.stage = .wait → ¬ (s.driver.chans c).Live → Held H x.devAddr x.len (s.tmp k)
  done : ∀ ret, x.stage = .returned ret → 0 ≤ ret → Held H x.devAddr x.len (s.tmp k)
  failed : ∀ ret, x.stage = .err ret → ret < 0

/-- A transfer that has not waited yet. -/
theorem brings_early {k : ℕ} {c : ChanId} {x : Xfer} (hw : x.stage ≠ .wait)
    (hr : ∀ ret, x.stage ≠ .returned ret) (he : ∀ ret, x.stage ≠ .err ret) : Brings H s k c x where
  mapped h := absurd h hw
  own h := absurd h hw
  done ret h := absurd h (hr ret)
  failed ret h := absurd h (he ret)

/-- What the steps of the others leave alone on the channel of a transfer. -/
structure Still (s t : System) (c : ChanId) : Prop where
  mapped : (t.driver.chans c).mapped = (s.driver.chans c).mapped
  unmaps : (t.driver.chans c).unmaps = (s.driver.chans c).unmaps
  dmaBuf : (t.driver.chans c).dmaBuf = (s.driver.chans c).dmaBuf
  issued : issues (t.driver.chans c).engine.log = issues (s.driver.chans c).engine.log
  moved : t.machine.movedBy (hw c) = s.machine.movedBy (hw c)

theorem Still.live {c : ChanId} (h : Still s t c) :
    (t.driver.chans c).Live ↔ (s.driver.chans c).Live := by
  rw [DmaChan.Live,DmaChan.Live,h.mapped,h.unmaps]

theorem Still.settled {c : ChanId} (h : Still s t c) : t.Settled c ↔ s.Settled c := by
  rw [System.Settled,System.Settled,h.issued,h.moved]

theorem movedBy_driver {l : Driver.Label} {n : ℕ} (h : Joined w s) (hg : Calm s.driver l)
    (he : step w s (.driver l n) = some t) (c : ChanId) :
    t.machine.movedBy (hw c) = s.machine.movedBy (hw c) := by
  obtain ⟨hd,hm,_⟩ := step_driver he
  obtain ⟨_,hmoved,_⟩ := follow_joined h hg hd hm
  unfold Machine.movedBy
  rw [hmoved]

theorem step_still {l : Label} (h : Joined w s) (hg : CalmStep s l) (he : step w s l = some t)
    {k : ℕ} {c : ChanId} {x : Xfer} (hx : s.driver.At k c x)
    (hown : ∀ ch n, l ≠ .driver (.run k ch) n) (helement : l ≠ .element c)
    (htasklet : ∀ n, l ≠ .driver (.tasklet c) n) : Still s t c := by
  cases l with
  | element e =>
    obtain ⟨m,hm,rfl⟩ := step_element he
    obtain ⟨_,_,_,b,_,hb⟩ := Execution.element_some hm
    refine ⟨rfl,rfl,rfl,rfl,?_⟩
    have hne : hw e ≠ hw c := by
      intro heq
      rw [hw_injective heq] at helement
      exact helement rfl
    have hmoved := Execution.movedBy_append (c := hw c) (hw e) b m (by rw [hb])
    rw [if_neg hne,List.append_nil] at hmoved
    exact hmoved
  | driver l n =>
    have hmoved := movedBy_driver h hg he c
    obtain ⟨hd,_⟩ := step_driver he
    have hsame : t.driver.chans c = s.driver.chans c → Still s t c := by
      intro hc
      exact ⟨by rw [hc],by rw [hc],by rw [hc],by rw [hc],hmoved⟩
    -- an interrupt keeps what was issued
    have hirq : ∀ {op : Op}, (op = .interrupt ∨ ∃ irq, op = .finish irq) → ∀ e : ChanId,
        ((s.driver.chans e).op w.dev op).map (s.driver.setChan e) = some t.driver →
        Still s t c := by
      intro op hop e hmap
      obtain ⟨d,hdop,ht⟩ := Option.map_eq_some_iff.mp hmap
      by_cases hce : c = e
      · subst hce
        obtain ⟨f,hf,rfl⟩ := Driver.op_some hdop
        have hc : t.driver.chans c = { s.driver.chans c with engine := f } := by
          rw [← ht,Driver.setChan_same]
        have hissues := (Driver.irq_ready (h.at hx).1.clients.solo hop hf).2.2.2.2
        exact ⟨by rw [hc],by rw [hc],by rw [hc],by rw [hc]; exact hissues,hmoved⟩
      · refine hsame ?_
        rw [← ht,Driver.setChan_other hce]
    cases l with
    | enter j way pos sz ok =>
      simp only [Driver.step] at hd
      split at hd
      · refine hsame ?_
        rw [← Option.some.inj hd]
        rfl
      · contradiction
    | run j ch =>
      obtain ⟨a,b,ha,ht,_⟩ := Driver.run_turns hd
      generalize hchans : t.driver.chans = chans at ht
      cases ht with
      | @transfer e y y' d hp hy =>
        have hce : c ≠ e := by
          rintro rfl
          obtain rfl := at_unique h.calm.owned hx ⟨a,ha,hp⟩
          exact hown ch n rfl
        refine hsame ?_
        rw [hchans,Function.update_of_ne hce]
      | _ => exact hsame (by rw [hchans])
    | finish e irq => exact hirq (Or.inr ⟨irq,rfl⟩) e hd
    | interrupt e => exact hirq (Or.inl rfl) e hd
    | tasklet e =>
      obtain ⟨d,_,ht⟩ := Option.map_eq_some_iff.mp hd
      have hce : c ≠ e := by
        rintro rfl
        exact htasklet n rfl
      refine hsame ?_
      rw [← ht,Driver.setChan_other hce]

/-- The element of the transfer itself. -/
theorem brings_element {k : ℕ} {c : ChanId} {x : Xfer} (h : Loaded w s)
    (he : step w s (.element c) = some t) (ht : H t) (hx : s.driver.At k c x) :
    Brings H t k c x := by
  obtain ⟨m,hm,rfl⟩ := step_element he
  obtain ⟨j,y,hf⟩ := h.joined.flight hm
  obtain rfl := at_unique h.joined.calm.owned hx hf.runs
  obtain rfl : x = y := by
    obtain ⟨a,ha,hp⟩ := hx
    obtain ⟨b,hb,hq⟩ := hf.runs
    cases ha.symm.trans hb
    cases hp.symm.trans hq
    rfl
  have hstage := hf.stage
  refine ⟨fun _ _ _ => ⟨_,ht,fun i hi => ?_⟩,fun _ hn => absurd hf.mapped.live hn,
    fun ret hr => ?_,fun ret hr => ?_⟩
  · dsimp only
    rw [hf.bus]
    cases hway : c.1 with
    | rx => exact (run_inside (c := Copy.mk x.devAddr (s.driver.chans c).dmaBuf x.len) hi _ _).symm
    | tx => exact run_inside (c := Copy.mk (s.driver.chans c).dmaBuf x.devAddr x.len) hi _ _
  · rw [hstage] at hr
    contradiction
  · rw [hstage] at hr
    contradiction

/-- The callback unmaps the buffer of the transfer. -/
theorem brings_tasklet {k n : ℕ} {c : ChanId} {x : Xfer} (h : Loaded w s)
    (he : step w s (.driver (.tasklet c) n) = some t) (hx : s.driver.At k c x)
    (hb : Brings H s k c x) : Brings H t k c x := by
  obtain ⟨hd,_,htmp,_⟩ := step_driver he
  obtain ⟨_,_,_,hlive,_,hnone⟩ := tasklet_at h.joined hd
  have hfits := h.joined.fits hx hlive
  have hunmapped : ¬ (t.driver.chans c).Live := by
    obtain ⟨_,_,_,_,_,hm⟩ := h.joined.calm.owner hlive
    have hpos := hm.pos
    obtain ⟨d,hdt,hs⟩ := Option.map_eq_some_iff.mp hd
    obtain ⟨f,_,rfl⟩ := Option.map_eq_some_iff.mp hdt
    rw [← hs,Driver.setChan_same]
    simp only [DmaChan.Live,DmaChan.callback,DmaChan.unmapSingle,hm.unmaps,hm.mapped,
      Driver.inTurn,List.length_append,List.length_map,List.length_range,List.length_singleton]
    omega
  have hown : t.tmp k = if c.1 = .rx then
      (Copy.mk (s.driver.chans c).dmaBuf 0 (s.driver.chans c).dmaLen).run s.machine.bus.far
        (s.tmp k) else s.tmp k := by
    rw [htmp]
    change (s.unmapSingle c).tmp k = _
    unfold System.unmapSingle
    dsimp only
    split
    · rw [h.lent k c x hx hlive]
      exact Function.update_self ..
    · rfl
  refine ⟨fun _ hl => absurd hl hunmapped,fun hs _ => ?_,fun ret hr => ?_,hb.failed⟩
  · refine (hb.mapped hs hlive (h.joined.settled hnone)).congr fun i hi => ?_
    rw [hown]
    cases hway : c.1 with
    | rx =>
      have hin := run_inside (c := Copy.mk (s.driver.chans c).dmaBuf 0 (s.driver.chans c).dmaLen)
        (by rw [hfits.len]; exact hi) s.machine.bus.far (s.tmp k)
      rw [Nat.zero_add] at hin
      exact hin
    | tx =>
      obtain ⟨a,ha,hp⟩ := hx
      exact (h.staged k a c x ha hp hway i hi).trans (h.shown k a c x ha hp hway hlive i hi).symm
  · have hmaps := (h.joined.at hx).1.stage x rfl
    rw [hr] at hmaps
    exact absurd hlive hmaps.not_live

theorem brings_others {l : Label} {k : ℕ} {c : ChanId} {x : Xfer} (h : Loaded w s)
    (hg : CalmStep s l) (he : step w s l = some t) (ht : H t) (hx : s.driver.At k c x)
    (hown : ∀ ch n, l ≠ .driver (.run k ch) n) (hb : Brings H s k c x) : Brings H t k c x := by
  by_cases helement : l = .element c
  · subst helement
    exact brings_element h he ht hx
  · by_cases htasklet : ∃ n, l = .driver (.tasklet c) n
    · obtain ⟨n,rfl⟩ := htasklet
      exact brings_tasklet h he hx hb
    · have hstill := step_still h.joined hg he hx hown helement fun n hl => htasklet ⟨n,hl⟩
      have htmp : t.tmp k = s.tmp k := by
        rcases step_tmp h.joined h.lent he hown with heq | ⟨e,y,n,hl,hy,_⟩
        · exact heq
        · obtain ⟨a,ha,hp⟩ := hx
          obtain ⟨b,hb,hq⟩ := hy
          cases ha.symm.trans hb
          cases hp.symm.trans hq
          exact absurd ⟨n,hl⟩ htasklet
      refine ⟨fun hs hl hset => ?_,fun hs hn => ?_,fun ret hr hpos => ?_,hb.failed⟩
      · have hlive := hstill.live.mp hl
        refine (hb.mapped hs hlive (hstill.settled.mp hset)).congr fun i hi => ?_
        rw [hstill.dmaBuf]
        refine area_kept h.joined hg he hlive (fun _ => helement) ?_
        rw [DmaChan.area,(h.joined.fits hx hlive).len]
        exact ⟨Nat.le_add_right _ _,Nat.add_lt_add_left hi _⟩
      · rw [htmp]
        exact hb.own hs fun hl => hn (hstill.live.mpr hl)
      · rw [htmp]
        exact hb.done ret hr hpos

/-- The chunk of a transfer that is issued is not moved yet. -/
theorem brings_issue {k n : ℕ} {ch : Choice} {c : ChanId} {x x' : Xfer} {e : DwEdma.State}
    (h : Joined w s) (hg : Calm s.driver (.run k ch))
    (he : step w s (.driver (.run k ch) n) = some t) (hx : s.driver.At k c x)
    (hs : x.stage = .issue) (hs' : x'.stage = .wait)
    (hop : DwEdma.step w.dev.chip (s.driver.chans c).engine .issuePending = some e)
    (hc : t.driver.chans c = { s.driver.chans c with engine := e }) : Brings H t k c x' := by
  obtain ⟨hacc,hready⟩ := h.at hx
  have hmaps := hacc.stage x rfl
  simp only [Xfer.Ready,hs] at hmaps hready
  obtain ⟨_,_,hconf,d,hsub,hmade⟩ := hready
  have hlive : (t.driver.chans c).Live := by
    rw [hc]
    rcases hmaps with ⟨hm,_⟩ | ⟨hf,_⟩
    · exact hm.live
    · obtain ⟨_,hnil,_⟩ := Driver.waiting_nil hacc.clients hf.waiting
      rw [hsub] at hnil
      contradiction
  have hissues : issues e.log = issues (s.driver.chans c).engine.log ++ [d] := by
    cases hop
    rcases DwEdma.solo_issued hacc.clients.solo with ⟨hno,_⟩ | ⟨_,o,hi⟩
    · rw [hconf] at hno
      contradiction
    · rw [hi.log,hsub]
      cases o <;> simp [issues]
  refine ⟨fun _ _ hset => ?_,fun _ hn => absurd hlive hn,fun ret hr => ?_,fun ret hr => ?_⟩
  · have hprefix := Execution.Lane.moved_prefix (h.lane (hw c) ⟨c,rfl⟩)
    rw [h.chan c] at hprefix
    have hlen := hprefix.length_le
    rw [System.Settled,movedBy_driver h hg he c,hc,hissues,List.flatMap_append,
      DwEdma.bursts_append,List.flatMap_singleton,hmade] at hset
    have heq := congrArg List.length hset
    rw [List.length_append,List.length_singleton] at heq
    omega
  · rw [hs'] at hr
    contradiction
  · rw [hs'] at hr
    contradiction

theorem brings_own {k n : ℕ} {ch : Choice} {c : ChanId} {x x' : Xfer} {d : DmaChan}
    (h : Joined w s) (hg : Calm s.driver (.run k ch))
    (he : step w s (.driver (.run k ch) n) = some t) (hx : s.driver.At k c x)
    (ht : x.Takes w.dev c.1 (s.driver.chans c) ch d x') (hd : t.driver.chans c = d)
    (hb : Brings H s k c x) : Brings H t k c x' := by
  -- a transfer that returns an error has no bytes to show
  have hreturns : ∀ {v : ℤ}, v < 0 → ∀ y : Xfer, y.stage = .returned v → Brings H t k c y := by
    intro v hv y hy
    refine ⟨fun hs => ?_,fun hs => ?_,fun ret hr hpos => ?_,fun ret hr => ?_⟩
    · rw [hy] at hs
      contradiction
    · rw [hy] at hs
      contradiction
    · cases hy.symm.trans hr
      omega
    · rw [hy] at hr
      contradiction
  cases ht with
  | map _ => exact brings_early (by simp) (by simp) (by simp)
  | unmapped _ => exact hreturns (by decide) _ rfl
  | config _ _ => exact brings_early (by simp) (by simp) (by simp)
  | unprepared _ =>
    refine ⟨fun hs => by contradiction,fun hs => by contradiction,fun ret hr => by contradiction,
      fun ret hr => ?_⟩
    cases hr
    decide
  | prep _ _ _ => exact brings_early (by simp) (by simp) (by simp)
  | reinit _ => exact brings_early (by simp) (by simp) (by simp)
  | submit _ _ => exact brings_early (by simp) (by simp) (by simp)
  | issue hs hop => exact brings_issue h hg he hx hs rfl hop hd
  | completed hs hc =>
    obtain ⟨_,_,htmp,_⟩ := step_driver he
    have hsame : t.tmp k = s.tmp k := by
      obtain ⟨a,ha,hp⟩ := hx
      rw [htmp]
      simp only [System.copies,ha,hp,hs]
    have hmaps := (h.at hx).1.stage x rfl
    rw [hs] at hmaps
    refine ⟨fun hr => by contradiction,fun hr => by contradiction,fun _ _ _ => ?_,
      fun ret hr => by contradiction⟩
    rw [hsame]
    rcases hmaps with ⟨_,_,_,hz⟩ | ⟨hf,_⟩
    · exact absurd hz hc
    · exact hb.own hs hf.not_live
  | expired hs hok _ =>
    rw [hg.1 c x hx hs] at hok
    contradiction
  | terminate hs _ =>
    have hmaps := (h.at hx).1.stage x rfl
    rw [hs] at hmaps
    exact hmaps.elim
  | @err ret hs => exact hreturns (hb.failed ret hs) _ rfl

/-! ## A call -/

/-- Every chunk of the bytes before `n` was on the device at a moment of `H`. -/
def Blocks (H : System → Prop) (pos n : ℕ) (f : Memory) : Prop :=
  ∀ j, ∃ u, H u ∧ ∀ i < n, i / 1024 = j → u.machine.bus.near (pos + i) = f i

theorem Blocks.congr {pos n : ℕ} {f g : Memory} (h : Blocks H pos n f) (hfg : ∀ i < n, g i = f i) :
    Blocks H pos n g := by
  intro j
  obtain ⟨u,hu,hf⟩ := h j
  exact ⟨u,hu,fun i hi hj => (hf i hi hj).trans (hfg i hi).symm⟩

theorem Blocks.next {pos n len : ℕ} {f : Memory} (h : Blocks H pos n f) (hn : 1024 ∣ n)
    (hlen : len ≤ 1024) (hheld : Held H (pos + n) len fun i => f (n + i)) :
    Blocks H pos (n + len) f := by
  intro j
  obtain ⟨q,rfl⟩ := hn
  by_cases hj : j = q
  · obtain ⟨u,hu,hf⟩ := hheld
    refine ⟨u,hu,fun i hi hq => ?_⟩
    have hlow : 1024 * q ≤ i := by omega
    obtain ⟨r,rfl⟩ := Nat.exists_eq_add_of_le hlow
    rw [← Nat.add_assoc]
    exact hf r (by omega)
  · obtain ⟨u,hu,hf⟩ := h j
    exact ⟨u,hu,fun i hi hq => hf i (by omega) hq⟩

/-- How far a call is whose user had `u₀` in the buffer: what it has done was, chunk by chunk, on
the device. -/
structure Carries (H : System → Prop) (dev : Device) (way : Way) (pos sz : ℕ) (u₀ : Memory)
    (s : System) (k : ℕ) (a : Driver.Call) : Prop where
  asks : a.Asks dev.ram pos
  way_eq : a.way = way
  sz_eq : a.sz = sz
  blocks : Blocks H pos a.loop.usrBuf (s.user k)
  xfer : ∀ c x, a.phase = .transfer c x → Brings H s k c x
  copy : ∀ c, a.phase = .copy c → Held H a.loop.pos a.loop.size (s.tmp k)
  kept : way = .tx → s.user k = u₀
  beside : ∀ i, a.loop.usrBuf + a.loop.size ≤ i → s.user k i = u₀ i

variable {dev : Device} {way : Way} {pos sz : ℕ} {u₀ : Memory} {k : ℕ} {a b : Driver.Call}

/-- A call that goes on with the same chunk. -/
theorem Carries.same (h : Carries H dev way pos sz u₀ s k a) (hasks : b.Asks dev.ram pos)
    (hway : b.way = a.way) (hsz : b.sz = a.sz) (hloop : b.loop = a.loop)
    (huser : t.user k = s.user k) (hxfer : ∀ c x, b.phase = .transfer c x → Brings H t k c x)
    (hcopy : ∀ c, b.phase = .copy c → Held H b.loop.pos b.loop.size (t.tmp k)) :
    Carries H dev way pos sz u₀ t k b where
  asks := hasks
  way_eq := hway.trans h.way_eq
  sz_eq := hsz.trans h.sz_eq
  blocks := by
    rw [hloop,huser]
    exact h.blocks
  xfer := hxfer
  copy := hcopy
  kept htx := huser.trans (h.kept htx)
  beside i hi := by
    rw [hloop] at hi
    rw [huser]
    exact h.beside i hi

/-- A call that goes on with the next chunk: this one is that of the user. -/
theorem Carries.next (h : Carries H dev way pos sz u₀ s k a) {c : ChanId}
    (hasks : (a.next c).Asks dev.ram pos) (hdvd : 1024 ∣ a.loop.usrBuf)
    (hpast : ∀ i < a.loop.usrBuf, t.user k i = s.user k i)
    (hbeside : ∀ i, a.loop.usrBuf + a.loop.size ≤ i → t.user k i = s.user k i)
    (hkept : way = .tx → t.user k = s.user k)
    (hheld : Held H a.loop.pos a.loop.size fun i => t.user k (a.loop.usrBuf + i)) :
    Carries H dev way pos sz u₀ t k (a.next c) where
  asks := hasks
  way_eq := h.way_eq
  sz_eq := h.sz_eq
  blocks := by
    rw [h.asks.loop.pos_eq] at hheld
    exact (h.blocks.congr hpast).next hdvd (Driver.loop_size_le a.loop).1 hheld
  xfer c x hp := by contradiction
  copy c hp := by contradiction
  kept htx := (hkept htx).trans (h.kept htx)
  beside i hi := by
    have hlow : a.loop.usrBuf + a.loop.size ≤ i := Nat.le_trans (Nat.le_add_right _ _) hi
    exact (hbeside i hlow).trans (h.beside i hlow)

theorem carries_others {l : Label} (hl : Loaded w s) (hg : CalmStep s l)
    (he : step w s l = some t) (ht : H t) (h : Carries H w.dev way pos sz u₀ s k a)
    (ha : s.driver.calls k = some a) (hr : a.Rests b)
    (hown : ∀ ch n, l ≠ .driver (.run k ch) n) : Carries H w.dev way pos sz u₀ t k b := by
  obtain ⟨hway,hsz,hloop,hphase⟩ := Driver.rests_same hr
  have hsame : ∀ {p : Driver.Phase}, b.phase = p → (∀ v, p ≠ .asleep v) → a.phase = p := by
    intro p hp hno
    rcases hphase with heq | ⟨_,v,hv⟩
    · exact heq.symm.trans hp
    · exact absurd (hp.symm.trans hv) (hno v)
  refine h.same (Driver.rests_asks h.asks hr) hway hsz hloop (step_user he hown) ?_ ?_
  · intro c x hp
    have hpa := hsame hp (by simp)
    exact brings_others hl hg he ht ⟨a,ha,hpa⟩ hown (h.xfer c x hpa)
  · intro c hp
    have hpa := hsame hp (by simp)
    rcases step_tmp hl.joined hl.lent he hown with heq | ⟨e,y,_,_,⟨a',ha',hp'⟩,_⟩
    · rw [heq,hloop]
      exact h.copy c hpa
    · cases ha.symm.trans ha'
      cases hpa.symm.trans hp'

theorem carries_own {ch : Choice} {n : ℕ} (hl : Loaded w s) (hg : Calm s.driver (.run k ch))
    (he : step w s (.driver (.run k ch) n) = some t)
    (h : Carries H w.dev way pos sz u₀ s k a) (ha : s.driver.calls k = some a)
    (hturns : a.Turns w.dev s.driver ch b t.driver.chans) :
    Carries H w.dev way pos sz u₀ t k b := by
  obtain ⟨hasks,hway,hsz⟩ := Driver.turns_asks h.asks hturns
  obtain ⟨_,_,htmp,huser,_⟩ := step_driver he
  have hcopied := copies_copied s (.run k ch) n
  -- only in the copy of a chunk does the buffer of the user change
  have hout : ∀ y, t.user k y ≠ s.user k y → ∃ c i, a.phase = .copy c ∧ i < a.loop.size ∧
      y = a.loop.usrBuf + i := by
    intro y hne
    rw [huser] at hne
    obtain ⟨_,a',c,i,_,ha',hp,hi,hy,_⟩ := copied_out hcopied hne
    cases ha.symm.trans ha'
    exact ⟨c,i,hp,hi,hy⟩
  have hstay : (∀ c, a.phase ≠ .copy c) → t.user k = s.user k := by
    intro hno
    funext y
    by_contra hne
    obtain ⟨c,_,hp,_⟩ := hout y hne
    exact hno c hp
  have hend : ∀ {c : ChanId} {v : ℤ}, a.loop = b.loop → b.phase = .release c v →
      (∀ c, a.phase ≠ .copy c) → Carries H w.dev way pos sz u₀ t k b := by
    intro c v hloop hp hno
    refine h.same hasks hway hsz hloop.symm (hstay hno) ?_ ?_
    · intro c x hq
      cases hp.symm.trans hq
    · intro c hq
      cases hp.symm.trans hq
  generalize hchans : t.driver.chans = chans at hturns
  cases hturns with
  | @waits p took hp hq =>
    have hno : (∀ c x, p ≠ .transfer c x) ∧ ∀ c, p ≠ .copy c := by
      constructor
      · rintro c x rfl
        rcases hq with hq | ⟨_,hq⟩ | hq <;> first | exact hq.elim | contradiction
      · rintro c rfl
        rcases hq with hq | ⟨_,hq⟩ | hq <;> first | exact hq.elim | contradiction
    refine h.same hasks hway hsz rfl (hstay ?_) (fun c x hx => absurd hx (hno.1 c x))
      fun c hx => absurd hx (hno.2 c)
    intro c hc
    rw [hc] at hp
    exact hp
  | finished hp _ => exact hend rfl rfl (by simp [hp])
  | fault hp _ _ _ => exact hend rfl rfl (by simp [hp])
  | failed hp _ _ => exact hend rfl rfl (by simp [hp])
  | begin hp _ _ =>
    refine h.same hasks hway hsz rfl (hstay (by simp [hp])) ?_ fun c hq => by contradiction
    rintro c x ⟨⟩
    exact brings_early (by simp [Xfer.start]) (by simp [Xfer.start]) (by simp [Xfer.start])
  | @transfer c x x' d hp hx =>
    refine h.same hasks hway hsz rfl (hstay (by simp [hp])) ?_ fun c hq => by contradiction
    rintro c' y ⟨⟩
    have hd : t.driver.chans c = d := by rw [hchans,Function.update_self]
    exact brings_own hl.joined hg he ⟨a,ha,hp⟩ (Driver.xfer_step_takes hx) hd (h.xfer c x hp)
  | @received c x ret hp hs hr _ =>
    have hsame : t.tmp k = s.tmp k := by
      rw [htmp]
      simp only [System.copies,ha,hp,hs]
    obtain ⟨hdev,hlen,_⟩ := h.asks.chunk c x hp
    refine h.same hasks hway hsz rfl (hstay (by simp [hp])) (fun c x hq => by contradiction) ?_
    intro c' _
    rw [hsame,← hdev,← hlen]
    exact (h.xfer c x hp).done ret hs hr
  | @sent c x ret hp hs hr htx =>
    have hsame := hstay (by simp [hp])
    obtain ⟨hdev,hlen,hleft⟩ := h.asks.chunk c x hp
    have hchan := ((hl.joined.calm.owned.sane k a ha).holds c (by rw [hp]; rfl)).2.2
    refine h.next hasks (h.asks.whole.resolve_left hleft) (fun _ _ => by rw [hsame])
      (fun _ _ => by rw [hsame]) (fun _ => hsame) ?_
    rw [← hdev,← hlen,hsame]
    exact ((h.xfer c x hp).done ret hs hr).congr fun i hi =>
      (hl.staged k a c x ha hp (hchan.trans htx) i hi).symm
  | @copied c hp hok =>
    obtain ⟨hrx,hleft⟩ := h.asks.copies c hp
    have hnew : ∀ i < a.loop.size, t.user k (a.loop.usrBuf + i) = s.tmp k i := by
      intro i hi
      have hcopies : s.copies (.run k ch) n = s.copyToUser k a.loop.usrBuf a.loop.size := by
        simp only [System.copies,ha,hp,hok,if_true]
      have hin := run_inside (c := Copy.mk 0 a.loop.usrBuf a.loop.size) hi (s.tmp k) (s.user k)
      rw [Nat.zero_add] at hin
      rw [huser,hcopies]
      exact (congrFun (Function.update_self ..) _).trans hin
    refine h.next hasks (h.asks.whole.resolve_left hleft) ?_ ?_ ?_ ?_
    · intro i hi
      by_contra hne
      obtain ⟨_,r,_,_,hr⟩ := hout i hne
      omega
    · intro i hi
      by_contra hne
      obtain ⟨_,r,_,_,hr⟩ := hout i hne
      omega
    · intro htx
      rw [h.way_eq,htx] at hrx
      contradiction
    · exact (h.copy c hp).congr hnew
  | @uncopied c hp _ =>
    obtain ⟨hrx,_⟩ := h.asks.copies c hp
    refine ⟨hasks,h.way_eq,h.sz_eq,h.blocks.congr fun i hi => ?_,fun c x hq => by contradiction,
      fun c hq => by contradiction,fun htx => ?_,fun i hi => ?_⟩
    · by_contra hne
      obtain ⟨_,r,_,_,hr⟩ := hout i hne
      omega
    · rw [h.way_eq,htx] at hrx
      contradiction
    · have hlow : a.loop.usrBuf + a.loop.size ≤ i := hi
      refine Eq.trans ?_ (h.beside i hlow)
      by_contra hne
      obtain ⟨_,r,_,_,hr⟩ := hout i hne
      omega
  | released hp =>
    exact h.same hasks hway hsz rfl (hstay (by simp [hp])) (fun c x hq => by contradiction)
      fun c hq => by contradiction

theorem step_carries {l : Label} (hl : Loaded w s) (hg : CalmStep s l) (he : step w s l = some t)
    (ht : H t) (h : ∃ a, s.driver.calls k = some a ∧ Carries H w.dev way pos sz u₀ s k a) :
    ∃ b, t.driver.calls k = some b ∧ Carries H w.dev way pos sz u₀ t k b := by
  obtain ⟨a,ha,hc⟩ := h
  by_cases hown : ∃ ch n, l = .driver (.run k ch) n
  · obtain ⟨ch,n,rfl⟩ := hown
    obtain ⟨hd,_⟩ := step_driver he
    obtain ⟨a',b,ha',hturns,hb,_⟩ := Driver.run_turns hd
    cases ha.symm.trans ha'
    exact ⟨b,hb,carries_own hl hg he hc ha hturns⟩
  · have hne : ∀ ch n, l ≠ .driver (.run k ch) n := fun ch n hl => hown ⟨ch,n,hl⟩
    cases l with
    | element e =>
      have hd : t.driver = s.driver := by
        obtain ⟨m,_,rfl⟩ := step_element he
        rfl
      exact ⟨a,by rw [hd]; exact ha,carries_others hl hg he ht hc ha (Or.inl rfl) hne⟩
    | driver l n =>
      obtain ⟨hd,_⟩ := step_driver he
      have hrun : ∀ ch, l ≠ .run k ch := by
        rintro ch rfl
        exact hne ch n rfl
      have henter : ∀ way pos sz ok, l ≠ .enter k way pos sz ok := by
        rintro way pos sz ok rfl
        simp [Driver.step,ha] at hd
      obtain ⟨b,hb,hr⟩ := Driver.rests_after (Driver.step_others hd hrun henter) ha
      exact ⟨b,hb,carries_others hl hg he ht hc ha hr hne⟩

theorem carries_enter {n : ℕ} {ok : Bool}
    (hg : CalmStep s (.driver (.enter k way pos sz ok) n))
    (he : step w s (.driver (.enter k way pos sz ok) n) = some t) (ht : H t) :
    ∃ b, t.driver.calls k = some b ∧ Carries H w.dev way pos sz (s.user k) t k b := by
  obtain ⟨hd,_⟩ := step_driver he
  have huser : t.user k = s.user k := step_user he fun ch m hl => by cases hl
  have hb : t.driver.calls k = some (Driver.Call.enter w.dev way pos sz ok) := by
    simp only [Driver.step] at hd
    split at hd
    · rw [← Option.some.inj hd,Driver.setCall_calls,if_pos rfl]
    · contradiction
  obtain ⟨_,hnone,_⟩ := Driver.sane_enter w.dev way pos sz ok
  refine ⟨_,hb,Driver.enter_asks w.dev way ok hg.2,rfl,rfl,fun j => ⟨t,ht,?_⟩,fun c x hp => ?_,
    fun c hp => ?_,fun _ => huser,fun i _ => congrFun huser i⟩
  · intro i hi
    exact absurd hi (Nat.not_lt_zero i)
  · rw [hp] at hnone
    contradiction
  · rw [hp] at hnone
    contradiction

/-- A call that returns no error returns the whole request. Each of its chunks in the buffer of
the user is, for a read and for a write, what the device had there at a moment of the call; the
rest of the buffer, and that of a write, is left alone. -/
theorem call_delivers {regs : Registers.RegFile} {bus : Bus} {tmp user : ℕ → Memory}
    {ls ks : List Label} {s₁ : System} {n : ℕ} {ok : Bool} {ret : ℤ}
    (hr : Runs (step w) CalmStep (System.init w regs bus tmp user) ls s)
    (hg : CalmStep s (.driver (.enter k way pos sz ok) n))
    (he : step w s (.driver (.enter k way pos sz ok) n) = some s₁)
    (hk : Runs (step w) CalmStep s₁ ks t) (ha : t.driver.calls k = some a)
    (hp : a.phase = .returned ret) :
    (0 ≤ ret → ret = sz ∧ ∀ j, ∃ u, Passes (step w) CalmStep s₁ ks t u ∧
      ∀ i < sz, i / 1024 = j → u.machine.bus.near (pos + i) = t.user k i) ∧
    (way = .tx → t.user k = s.user k) ∧ ∀ i, sz ≤ i → t.user k i = s.user k i := by
  have hstart : Loaded w s₁ := step_loaded (runs_loaded hr) hg he
  have hfirst : Passes (step w) CalmStep s₁ ks t s₁ := ⟨[],ks,rfl,.refl s₁,hk⟩
  obtain ⟨_,b,hb,hc⟩ := hk.passing (I := fun u => Loaded w u ∧ ∃ b, u.driver.calls k = some b ∧
      Carries (Passes (step w) CalmStep s₁ ks t) w.dev way pos sz (s.user k) u k b)
    (fun u l v _ hv hu hg he => ⟨step_loaded hu.1 hg he,step_carries hu.1 hg he hv hu.2⟩)
    ⟨hstart,carries_enter hg he hfirst⟩
  cases ha.symm.trans hb
  have hleft := hc.asks.loop.left_eq
  obtain ⟨_,hsize⟩ := Driver.loop_size_le a.loop
  rw [hc.sz_eq] at hleft
  refine ⟨fun hpos => ?_,hc.kept,fun i hi => hc.beside i (by omega)⟩
  obtain ⟨hret,hdone⟩ := hc.asks.ended ret (Or.inl hp) hpos
  have hall : a.loop.usrBuf = sz := by omega
  have hblocks := hc.blocks
  rw [hall] at hblocks
  exact ⟨hret.trans (congrArg Nat.cast hc.sz_eq),hblocks⟩

/-- A step of call `k`, in which everything succeeds and a buffer is mapped at `addr`. -/
def goes (k addr : ℕ) : Label := .driver (.run k ⟨true,false,addr,.complete⟩) 0

/-- The engine moves the chunk of a channel, and its interrupt is handled. -/
def served (c : ChanId) : List Label :=
  [.element c,.driver (.finish c .done) 0,.driver (.interrupt c) 0,.driver (.tasklet c) 0]

/-- A write of 1028 bytes at 100. -/
def writerEnters : Label := .driver (.enter 0 .tx 100 1028 true) 0

def writerWaits : List Label := List.replicate 8 (goes 0 4096)

/-- A read of four bytes at 100, while the first chunk of the write is at work. -/
def readerEnters : Label := .driver (.enter 1 .rx 100 4 true) 0

/-- Both chunks are at work at once, the write on `c` and the read on `e`; then the write goes on
with its second one. -/
def bothReturn (c e : ChanId) : List Label :=
  List.replicate 8 (goes 1 16384) ++ served c ++ served e ++
    List.replicate 9 (goes 0 4096) ++ List.replicate 5 (goes 1 16384) ++ served c ++
    List.replicate 4 (goes 0 4096)

theorem bothReturn_runs : ((step board lettered writerEnters).bind fun s =>
    (check (step board) (fun s l => s.quiet l = true) s writerWaits).bind fun m =>
    (step board m readerEnters).bind fun m₁ =>
    (check (step board) (fun s l => s.quiet l = true) m₁
        (bothReturn (.tx,0) (.rx,0))).filter fun t =>
      decide ((t.driver.calls 0).map Driver.Call.phase = some (.returned 1028) ∧
        (t.driver.calls 1).map Driver.Call.phase = some (.returned 4))).isSome = true := by
  decide +kernel

theorem bothReturn_delivers : ∃ s m m₁ t, step board lettered writerEnters = some s ∧
    Runs (step board) CalmStep s writerWaits m ∧ step board m readerEnters = some m₁ ∧
    Runs (step board) CalmStep m₁ (bothReturn (.tx,0) (.rx,0)) t ∧
    (∀ j, ∃ u, Passes (step board) CalmStep s
        (writerWaits ++ readerEnters :: bothReturn (.tx,0) (.rx,0)) t u ∧
      ∀ i < 1028, i / 1024 = j → u.machine.bus.near (100 + i) = t.user 0 i) ∧
    ∀ j, ∃ u, Passes (step board) CalmStep m₁ (bothReturn (.tx,0) (.rx,0)) t u ∧
      ∀ i < 4, i / 1024 = j → u.machine.bus.near (100 + i) = t.user 1 i := by
  obtain ⟨s,hs,hrest⟩ := Option.bind_eq_some_iff.mp (Option.some_get bothReturn_runs).symm
  obtain ⟨m,hm,hrest⟩ := Option.bind_eq_some_iff.mp hrest
  obtain ⟨m₁,hm₁,hrest⟩ := Option.bind_eq_some_iff.mp hrest
  obtain ⟨hcheck,hphases⟩ := Option.filter_eq_some_iff.mp hrest
  obtain ⟨hwriter,hreader⟩ := of_decide_eq_true hphases
  obtain ⟨a,ha,hp⟩ := Option.map_eq_some_iff.mp hwriter
  obtain ⟨b,hb,hq⟩ := Option.map_eq_some_iff.mp hreader
  have hwaits := (runs_of_check hm).mono fun _ _ => calm_of_quiet
  have hreturn := (runs_of_check hcheck).mono fun _ _ => calm_of_quiet
  have hfits : 100 + 1028 < 18446744073709551616 ∧ 100 + 4 < 18446744073709551616 := by decide
  have hwrite : CalmStep lettered writerEnters := ⟨trivial,hfits.1⟩
  have hread : CalmStep m readerEnters := ⟨trivial,hfits.2⟩
  refine ⟨s,m,m₁,_,hs,hwaits,hm₁,hreturn,?_,?_⟩
  · exact ((call_delivers (.refl lettered) hwrite hs
      (hwaits.append (.step hread hm₁ hreturn)) ha hp).1 (by decide)).2
  · exact ((call_delivers (.step hwrite hs hwaits) hread hm₁ hreturn hb hq).1 (by decide)).2

end AkidaEdma.DataPath
