import AkidaEdma.Driver.Mapping
import AkidaEdma.Engine.ScatterGather

/-! # Calm runs

No wait expires and no chunk is aborted; the VFS keeps a request below the end of the address
space, and a new DMA mapping lies beside the live ones. In such runs every descriptor that the
driver submits is one burst, between the chunk of the request and the buffer of its mapping.
-/
namespace AkidaEdma.Driver
open DwEdma Transition

/-- The channel has a mapping that is not unmapped yet. -/
def DmaChan.Live (c : DmaChan) : Prop := c.unmaps.length < c.mapped

/-- The buffer of the last mapping, at its DMA address. -/
def DmaChan.area (c : DmaChan) : Set ℕ := Set.Ico c.dmaBuf (c.dmaBuf + c.dmaLen)

/-- What the environment of a calm run keeps to. -/
def Calm (s : State) (l : Label) : Prop :=
  Patient s l ∧
  match l with
  | .enter _ _ pos sz _ => pos + sz < 18446744073709551616
  | .run k ch => ∀ c x, s.At k c x → x.stage = .map → ch.ok = true →
      ch.addr + x.len ≤ 18446744073709551616 ∧ ∀ e, e ≠ c → (s.chans e).Live →
        Disjoint (Set.Ico ch.addr (ch.addr + x.len)) (s.chans e).area
  | .finish _ irq => irq = .done
  | _ => True

theorem setChan_same (s : State) (c : ChanId) (d : DmaChan) : (s.setChan c d).chans c = d :=
  Function.update_self ..

theorem setChan_other {c e : ChanId} (h : e ≠ c) (s : State) (d : DmaChan) :
    (s.setChan c d).chans e = s.chans e := Function.update_of_ne h ..

/-! ## The request of a call -/

/-- The call works on the request for `[pos, pos + sz)`. -/
structure Call.Asks (ram : DmaRam) (pos : ℕ) (a : Call) : Prop where
  loop : a.loop.At pos a.sz
  whole : a.loop.left = 0 ∨ 1024 ∣ a.loop.usrBuf
  allowed : (∀ ret, a.phase ≠ .returned ret) → isAllowed ram pos a.sz = true
  /-- The transfer is that of the chunk. -/
  chunk : ∀ c x, a.phase = .transfer c x →
    x.devAddr = a.loop.pos ∧ x.len = a.loop.size ∧ a.loop.left ≠ 0
  copies : ∀ c, a.phase = .copy c → a.way = .rx ∧ a.loop.left ≠ 0
  ended : ∀ ret, (a.phase = .returned ret ∨ ∃ c, a.phase = .release c ret) → 0 ≤ ret →
    ret = a.sz ∧ a.loop.left = 0

/-- What a step makes of the call whose step it is, and of the channels. -/
inductive Call.Turns (dev : Device) (s : State) (a : Call) (ch : Choice) :
    Call → (ChanId → DmaChan) → Prop
  | waits {p : Phase} {took : List ChanId} (hp : a.phase.Waits)
      (hq : p.Waits ∨ (∃ c, p = .loop c) ∨ p = .returned (-ERESTARTSYS)) :
      Turns dev s a ch { a with phase := p, took := took } s.chans
  | finished {c : ChanId} (hp : a.phase = .loop c) (hl : a.loop.left = 0) :
      Turns dev s a ch { a with phase := .release c a.sz } s.chans
  | fault {c : ChanId} (hp : a.phase = .loop c) (hw : a.way = .tx) (hl : a.loop.left ≠ 0)
      (hok : ch.ok = false) : Turns dev s a ch { a with phase := .release c (-EFAULT) } s.chans
  | begin {c : ChanId} (hp : a.phase = .loop c) (hl : a.loop.left ≠ 0)
      (hok : a.way = .tx → ch.ok = true) : Turns dev s a ch
      { a with phase := .transfer c (Xfer.start a.loop.pos a.loop.size) } s.chans
  | transfer {c : ChanId} {x x' : Xfer} {d : DmaChan} (hp : a.phase = .transfer c x)
      (hx : x.step dev c.1 (s.chans c) ch = some (d,x')) :
      Turns dev s a ch { a with phase := .transfer c x' } (Function.update s.chans c d)
  | failed {c : ChanId} {x : Xfer} {ret : ℤ} (hp : a.phase = .transfer c x)
      (hs : x.stage = .returned ret) (hr : ret < 0) :
      Turns dev s a ch { a with phase := .release c ret } s.chans
  | received {c : ChanId} {x : Xfer} {ret : ℤ} (hp : a.phase = .transfer c x)
      (hs : x.stage = .returned ret) (hr : 0 ≤ ret) (hw : a.way = .rx) :
      Turns dev s a ch { a with phase := .copy c } s.chans
  | sent {c : ChanId} {x : Xfer} {ret : ℤ} (hp : a.phase = .transfer c x)
      (hs : x.stage = .returned ret) (hr : 0 ≤ ret) (hw : a.way = .tx) :
      Turns dev s a ch (a.next c) s.chans
  | copied {c : ChanId} (hp : a.phase = .copy c) (hok : ch.ok = true) :
      Turns dev s a ch (a.next c) s.chans
  | uncopied {c : ChanId} (hp : a.phase = .copy c) (hok : ch.ok = false) :
      Turns dev s a ch { a with phase := .release c (-EFAULT) } s.chans
  | released {c : ChanId} {ret : ℤ} (hp : a.phase = .release c ret) :
      Turns dev s a ch { a with phase := .returned ret, gave := a.gave ++ [c] } s.chans

/-- What the step of another call makes of a call. -/
def Call.Rests (a b : Call) : Prop := b = a ∨ ∃ way, b = a.wake way

theorem mapped_ok {dev : Device} {way : Way} {x x' : Xfer} {c c' : DmaChan} {ch : Choice}
    (h : x.step dev way c ch = some (c',x')) (hs : x.stage = .map) (hs' : x'.stage = .config) :
    ch.ok = true := by
  simp only [Xfer.step,hs] at h
  split at h
  · assumption
  · cases h
    contradiction

theorem acquire_turns {dev : Device} {s : State} {k : ℕ} {a : Call} {ch : Choice}
    (hp : a.phase.Waits) : ∃ b, a.Turns dev s ch b (s.acquire k a ch.signal).chans ∧
      (s.acquire k a ch.signal).calls = Function.update s.calls k (some b) := by
  unfold State.acquire
  split
  · exact ⟨_,.waits hp (Or.inr (Or.inl ⟨_,rfl⟩)),rfl⟩
  · have hsame : ∀ p : Phase, { a with phase := p } = { a with phase := p, took := a.took } :=
      fun p => rfl
    split
    · exact ⟨_,hsame _ ▸ .waits hp (Or.inr (Or.inr rfl)),rfl⟩
    · exact ⟨_,hsame _ ▸ .waits hp (Or.inl trivial),rfl⟩

theorem run_turns {dev : Device} {s t : State} {k : ℕ} {ch : Choice}
    (h : s.run dev k ch = some t) : ∃ a b, s.calls k = some a ∧ a.Turns dev s ch b t.chans ∧
      t.calls k = some b ∧ ∀ j, j ≠ k → Option.Rel Call.Rests (s.calls j) (t.calls j) := by
  -- all but a release leave the other calls alone
  have hset : ∀ {a b : Call}, s.calls k = some a →
      a.Turns dev s ch b t.chans → t.calls = Function.update s.calls k (some b) →
      ∃ a b, s.calls k = some a ∧ a.Turns dev s ch b t.chans ∧ t.calls k = some b ∧
        ∀ j, j ≠ k → Option.Rel Call.Rests (s.calls j) (t.calls j) := by
    intro a b ha ht hc
    refine ⟨a,b,ha,ht,by rw [hc,Function.update_self],fun j hj => ?_⟩
    rw [hc,Function.update_of_ne hj]
    cases s.calls j with
    | none => exact .none
    | some a' => exact .some (Or.inl rfl)
  unfold State.run at h
  split at h
  · contradiction
  · rename_i a ha
    split at h
    · rename_i hp
      cases h
      obtain ⟨b,hb,hc⟩ := acquire_turns (a := a) (by rw [hp]; trivial)
      exact hset ha hb hc
    · rename_i woken hp
      split at h
      · cases h
        obtain ⟨b,hb,hc⟩ := acquire_turns (a := a) (by rw [hp]; trivial)
        exact hset ha hb hc
      · contradiction
    · rename_i c hp
      split at h
      · rename_i hl
        cases h
        exact hset ha (.finished hp hl) rfl
      · rename_i hl
        split at h
        · rename_i hf
          cases h
          exact hset ha (.fault hp hf.1 hl hf.2) rfl
        · rename_i hf
          cases h
          refine hset ha (.begin hp hl fun hw => ?_) rfl
          cases hok : ch.ok with
          | true => rfl
          | false => exact absurd ⟨hw,hok⟩ hf
    · rename_i c x hp
      split at h
      · rename_i ret hs
        split at h
        · rename_i hr
          cases h
          exact hset ha (.failed hp hs hr) rfl
        · rename_i hr
          split at h
          · rename_i hw
            cases h
            exact hset ha (.received hp hs (Int.not_lt.mp hr) hw) rfl
          · rename_i hw
            cases h
            refine hset ha (.sent hp hs (Int.not_lt.mp hr) ?_) rfl
            cases hway : a.way with
            | rx => exact absurd hway hw
            | tx => rfl
      · obtain ⟨⟨d,x'⟩,ht,rfl⟩ := Option.map_eq_some_iff.mp h
        exact hset ha (.transfer hp ht) rfl
    · rename_i c hp
      split at h
      · rename_i hok
        cases h
        exact hset ha (.copied hp hok) rfl
      · rename_i hok
        cases h
        exact hset ha (.uncopied hp (by simpa using hok)) rfl
    · rename_i c ret hp
      cases h
      refine ⟨a,_,ha,.released hp,Function.update_self ..,fun j hj => ?_⟩
      rw [State.release,setCall_calls,if_neg hj]
      change Option.Rel Call.Rests (s.calls j) ((s.calls j).map (Call.wake c.1))
      cases s.calls j with
      | none => exact .none
      | some a' => exact .some (Or.inr ⟨c.1,rfl⟩)
    · contradiction

theorem takes_same {dev : Device} {way : Way} {x x' : Xfer} {c c' : DmaChan} {ch : Choice}
    (h : x.Takes dev way c ch c' x') : x'.devAddr = x.devAddr ∧ x'.len = x.len := by
  cases h <;> exact ⟨rfl,rfl⟩

theorem advance_whole {l : Loop} (h : 1024 ∣ l.usrBuf) :
    l.advance.left = 0 ∨ 1024 ∣ l.advance.usrBuf := by
  by_cases hl : l.left > AKIDA_DMA_XFER_MAX_SIZE
  · right
    have hsize : l.size = 1024 := if_pos hl
    rw [Loop.advance,hsize]
    exact Nat.dvd_add h (Nat.dvd_refl 1024)
  · left
    have hsize : l.size = l.left := if_neg hl
    rw [Loop.advance,hsize,Nat.sub_self]

variable {ram : DmaRam} {pos : ℕ} {a b : Call}

theorem Call.Asks.next (h : a.Asks ram pos) {c : ChanId} (hp : ∀ ret, a.phase ≠ .returned ret)
    (hl : a.loop.left ≠ 0) : (a.next c).Asks ram pos where
  loop := h.loop.advance
  whole := advance_whole (h.whole.resolve_left hl)
  allowed _ := h.allowed hp
  chunk _ _ hq := by contradiction
  copies _ hq := by contradiction
  ended ret hq := by rcases hq with hq | ⟨_,hq⟩ <;> contradiction

theorem turns_asks {dev : Device} {s : State} {ch : Choice} {chans : ChanId → DmaChan}
    (h : a.Asks ram pos) (ht : a.Turns dev s ch b chans) :
    b.Asks ram pos ∧ b.way = a.way ∧ b.sz = a.sz := by
  have hphase : ∀ {p : Phase}, a.phase = p → (∀ ret, p ≠ .returned ret) →
      isAllowed ram pos a.sz = true := fun hp hne => h.allowed (by rw [hp]; exact hne)
  -- an error ends the call
  have hfail : ∀ (c : ChanId) (ret : ℤ), ret < 0 → isAllowed ram pos a.sz = true →
      ({ a with phase := .release c ret } : Call).Asks ram pos := by
    intro c ret hr hallowed
    refine ⟨h.loop,h.whole,fun _ => hallowed,fun _ _ hq => by contradiction,
      fun _ hq => by contradiction,?_⟩
    rintro v (hq | ⟨_,hq⟩) hv
    · contradiction
    · cases hq
      omega
  cases ht with
  | @waits p took hp hq =>
    have hne : ∀ ret, a.phase ≠ .returned ret := by
      intro ret he
      rw [he] at hp
      exact hp
    refine ⟨⟨h.loop,h.whole,fun _ => h.allowed hne,?_,?_,?_⟩,rfl,rfl⟩
    · rintro c x rfl
      rcases hq with hq | ⟨_,hq⟩ | hq <;> first | exact hq.elim | contradiction
    · rintro c rfl
      rcases hq with hq | ⟨_,hq⟩ | hq <;> first | exact hq.elim | contradiction
    · rintro ret hr hpos
      rcases hq with hq | ⟨_,rfl⟩ | rfl
      · rcases hr with rfl | ⟨_,rfl⟩ <;> exact hq.elim
      · rcases hr with hr | ⟨_,hr⟩ <;> contradiction
      · rcases hr with hr | ⟨_,hr⟩
        · cases hr
          exact absurd hpos (by decide)
        · contradiction
  | finished hp hl =>
    refine ⟨⟨h.loop,h.whole,fun _ => hphase hp nofun,fun _ _ hq => by contradiction,
      fun _ hq => by contradiction,?_⟩,rfl,rfl⟩
    rintro ret (hq | ⟨_,hq⟩) _
    · contradiction
    · cases hq
      exact ⟨rfl,hl⟩
  | fault hp hw hl hok => exact ⟨hfail _ _ (by decide) (hphase hp nofun),rfl,rfl⟩
  | begin hp hl hok =>
    refine ⟨⟨h.loop,h.whole,fun _ => hphase hp nofun,?_,fun _ hq => by contradiction,?_⟩,rfl,rfl⟩
    · rintro c x ⟨⟩
      exact ⟨rfl,rfl,hl⟩
    · rintro ret (hq | ⟨_,hq⟩) <;> contradiction
  | transfer hp hx =>
    obtain ⟨hd,hl,hleft⟩ := h.chunk _ _ hp
    obtain ⟨hd',hl'⟩ := takes_same (xfer_step_takes hx)
    refine ⟨⟨h.loop,h.whole,fun _ => hphase hp nofun,?_,fun _ hq => by contradiction,?_⟩,rfl,rfl⟩
    · rintro c x ⟨⟩
      exact ⟨hd'.trans hd,hl'.trans hl,hleft⟩
    · rintro ret (hq | ⟨_,hq⟩) <;> contradiction
  | failed hp hs hr => exact ⟨hfail _ _ hr (hphase hp nofun),rfl,rfl⟩
  | received hp hs hr hw =>
    obtain ⟨_,_,hleft⟩ := h.chunk _ _ hp
    refine ⟨⟨h.loop,h.whole,fun _ => hphase hp nofun,fun _ _ hq => by contradiction,
      fun _ _ => ⟨hw,hleft⟩,?_⟩,rfl,rfl⟩
    rintro ret (hq | ⟨_,hq⟩) <;> contradiction
  | sent hp hs hr hw => exact ⟨h.next (by rw [hp]; nofun) (h.chunk _ _ hp).2.2,rfl,rfl⟩
  | copied hp hok => exact ⟨h.next (by rw [hp]; nofun) (h.copies _ hp).2,rfl,rfl⟩
  | uncopied hp hok => exact ⟨hfail _ _ (by decide) (hphase hp nofun),rfl,rfl⟩
  | @released c ret hp =>
    refine ⟨⟨h.loop,h.whole,fun hne => absurd rfl (hne ret),fun _ _ hq => by contradiction,
      fun _ hq => by contradiction,?_⟩,rfl,rfl⟩
    rintro v (hq | ⟨_,hq⟩) hv
    · cases hq
      exact h.ended ret (Or.inr ⟨c,hp⟩) hv
    · contradiction

/-- A woken call is the one that slept. -/
theorem rests_same (h : a.Rests b) : b.way = a.way ∧ b.sz = a.sz ∧ b.loop = a.loop ∧
    (b.phase = a.phase ∨ (∃ w, a.phase = .asleep w) ∧ ∃ w, b.phase = .asleep w) := by
  rcases h with rfl | ⟨way,rfl⟩
  · exact ⟨rfl,rfl,rfl,Or.inl rfl⟩
  · rcases wake_cases way a with he | ⟨w,hp,_,he⟩ <;> rw [he]
    · exact ⟨rfl,rfl,rfl,Or.inl rfl⟩
    · exact ⟨rfl,rfl,rfl,Or.inr ⟨⟨w,hp⟩,true,rfl⟩⟩

theorem rests_asks (h : a.Asks ram pos) (hr : a.Rests b) : b.Asks ram pos := by
  rcases hr with rfl | ⟨way,rfl⟩
  · exact h
  · rcases wake_cases way a with he | ⟨w,hp,_,he⟩ <;> rw [he]
    · exact h
    · refine ⟨h.loop,h.whole,fun _ => h.allowed (by rw [hp]; nofun),fun _ _ hq => by contradiction,
        fun _ hq => by contradiction,?_⟩
      rintro ret (hq | ⟨_,hq⟩) <;> contradiction

theorem enter_asks (dev : Device) (way : Way) {pos sz : ℕ} (ok : Bool)
    (hvfs : pos + sz < 18446744073709551616) :
    (Call.enter dev way pos sz ok).Asks dev.ram pos := by
  have hloop := loop_start_at hvfs
  have hwhole : (Loop.start pos sz).left = 0 ∨ 1024 ∣ (Loop.start pos sz).usrBuf :=
    Or.inr ⟨0,rfl⟩
  have hend : ∀ v : ℤ, v < 0 →
      Call.Asks dev.ram pos ⟨way,sz,Loop.start pos sz,.returned v,[],[]⟩ := by
    intro v hv
    refine ⟨hloop,hwhole,fun hne => absurd rfl (hne v),fun _ _ hq => by contradiction,
      fun _ hq => by contradiction,?_⟩
    rintro ret (hq | ⟨_,hq⟩) hr
    · cases hq
      omega
    · contradiction
  unfold Call.enter
  split
  · exact hend _ (by decide)
  · rename_i hallowed
    split
    · exact hend _ (by decide)
    · refine ⟨hloop,hwhole,fun _ => by simpa using hallowed,fun _ _ hq => by contradiction,
        fun _ hq => by contradiction,?_⟩
      rintro ret (hq | ⟨_,hq⟩) <;> contradiction

/-! ## The descriptor of a transfer -/

/-- The burst between `len` bytes of the device at `dev` and of the host at `buf`. -/
def Way.burst (way : Way) (dev buf len : ℕ) : Burst :=
  match way with
  | .rx => ⟨dev,buf,len⟩
  | .tx => ⟨buf,dev,len⟩

/-- The buffer of the transfer is mapped. -/
structure Xfer.Fits (x : Xfer) (c : DmaChan) : Prop where
  len : c.dmaLen = x.len
  stop : c.dmaBuf + x.len ≤ 18446744073709551616

/-- The descriptor moves the chunk of the transfer. -/
def Xfer.Made (way : Way) (x : Xfer) (c : DmaChan) (d : Desc) : Prop :=
  bursts d.chunk = [way.burst x.devAddr c.dmaBuf x.len]

/-- How far the descriptor of a transfer is, by its stage. -/
def Xfer.Ready (way : Way) (x : Xfer) (c : DmaChan) : Prop :=
  match x.stage with
  | .config => x.Fits c ∧ c.engine.prepared = []
  | .err _ => x.Fits c ∧ c.engine.prepared = []
  | .prep => x.Fits c ∧ c.engine.prepared = [] ∧ c.engine.chan.configured = true ∧
      c.engine.chan.config = slaveConfig way x.devAddr c.dmaBuf
  | .reinit => x.Fits c ∧ c.engine.chan.configured = true ∧
      ∃ d, c.engine.prepared = [d] ∧ x.Made way c d
  | .submit => x.Fits c ∧ c.engine.chan.configured = true ∧
      ∃ d, c.engine.prepared = [d] ∧ x.Made way c d
  | .issue => x.Fits c ∧ c.engine.prepared = [] ∧ c.engine.chan.configured = true ∧
      ∃ d, c.engine.chan.descSubmitted = [d] ∧ x.Made way c d
  | .wait => x.Fits c ∧ c.engine.prepared = [] ∧
      ∃ I d, issues c.engine.log = I ++ [d] ∧ x.Made way c d
  | _ => c.engine.prepared = []

def Session.Readied (way : Way) (s : Session) : Prop :=
  match s.xfer with
  | none => s.chan.engine.prepared = []
  | some x => x.Ready way s.chan

/-- The descriptor that `dmaengine_prep_slave_single` returns. -/
theorem prepSlaveSingle_burst {chip : Chip} {chan : Chan} {way : Way} {vd dev buf len : ℕ} {d : Desc}
    (hplain : chip.pciAddress = none) (hll : 1 ≤ chan.llMax) (hdev : dev < 18446744073709551616)
    (hlen : len < 4294967296) (hconf : chan.config = slaveConfig way dev buf)
    (hd : prepSlaveSingle chip chan vd buf len way.direction = some d) :
    bursts d.chunk = [way.burst dev buf len] := by
  have hbase : deviceBase chip chan way.direction = dev := by
    rw [deviceBase,getPciAddress,hplain,hconf]
    cases way <;> rfl
  have htyped : Typed chip chan way.direction [⟨buf,len⟩] := by
    refine ⟨by simp,fun e he => ?_,by rw [hbase]; exact hdev⟩
    rw [List.mem_singleton.mp he]
    exact hlen
  obtain ⟨hone,hburst,_⟩ := deviceTransfer_translated hll (by simp) htyped hd
  obtain ⟨b,hb,hsz,hhost,hdevice⟩ := hburst 0 ⟨buf,len⟩ rfl
  have hbursts : bursts d.chunk = [b] := by
    obtain ⟨b',hb'⟩ := List.length_eq_one_iff.mp hone
    rw [hb'] at hb ⊢
    exact congrArg (fun x => [x]) (Option.some.inj hb)
  have haddr : b.deviceAddr way.direction = dev := by
    rw [hdevice,hbase]
    exact Nat.mod_eq_of_lt hdev
  rw [hbursts]
  obtain ⟨sar,dar,sz⟩ := b
  dsimp only at hsz
  cases way with
  | rx =>
    have h1 : dar = buf := hhost
    have h2 : sar = dev := haddr
    rw [h1,h2,hsz]
    rfl
  | tx =>
    have h1 : sar = buf := hhost
    have h2 : dar = dev := haddr
    rw [h1,h2,hsz]
    rfl

theorem doneInterrupt_config (c : Chan) : (doneInterrupt c).1.config = c.config ∧
    (doneInterrupt c).1.configured = c.configured := by
  have hstart : ∀ c : Chan, (startTransfer c).1.config = c.config := by
    intro c
    rcases startTransfer_cases c with ⟨he,_⟩ | ⟨d,rest,k,ks,_,_,he⟩ <;> rw [he]
  cases hi : c.descIssued with
  | nil =>
    rw [doneInterrupt_nil hi]
    exact ⟨rfl,rfl⟩
  | cons d rest =>
    rcases doneInterrupt_cons hi with ⟨_,he⟩ | ⟨_,he⟩ | ⟨_,he⟩ <;> rw [he]
    · unfold continueTransfer
      split
      · exact ⟨hstart _,startTransfer_configured _⟩
      · exact ⟨hstart _,startTransfer_configured _⟩
    · exact ⟨rfl,rfl⟩
    · exact ⟨rfl,rfl⟩

theorem abortInterrupt_config (c : Chan) : (abortInterrupt c).config = c.config ∧
    (abortInterrupt c).configured = c.configured := by
  unfold abortInterrupt
  split <;> exact ⟨rfl,rfl⟩

/-- An interrupt leaves the descriptors alone that are not issued yet. -/
theorem irq_ready {chip : Chip} {s t : DwEdma.State} {op : Op} (h : Solo s)
    (hop : op = .interrupt ∨ ∃ irq, op = .finish irq) (he : DwEdma.step chip s op = some t) :
    t.prepared = s.prepared ∧ t.chan.config = s.chan.config ∧
      t.chan.configured = s.chan.configured ∧ t.chan.descSubmitted = s.chan.descSubmitted ∧
      issues t.log = issues s.log := by
  rcases hop with rfl | ⟨irq,rfl⟩
  · obtain ⟨x,irq,rest,hp,rfl⟩ := step_interrupt_some he
    obtain ⟨d,o,hh⟩ := solo_handled h hp
    have hlog : issues (s.interrupt x irq rest).log = issues s.log := by
      rw [hh.log]
      cases irq <;> cases o <;> simp [issues,Irq.event]
    refine ⟨?_,?_,?_,hh.submitted,hlog⟩ <;> cases irq
    · rfl
    · rfl
    · exact (doneInterrupt_config s.chan).1
    · exact (abortInterrupt_config s.chan).1
    · exact (doneInterrupt_config s.chan).2
    · exact (abortInterrupt_config s.chan).2
  · obtain ⟨x,rest,_,rfl⟩ := step_finish_some he
    exact ⟨rfl,rfl,rfl,rfl,rfl⟩

/-- The readiness of a transfer reads these of the channel. -/
theorem ready_congr {way : Way} {x : Xfer} {c c' : DmaChan} (h : x.Ready way c)
    (hbuf : c'.dmaBuf = c.dmaBuf) (hlen : c'.dmaLen = c.dmaLen)
    (he : c'.engine.prepared = c.engine.prepared ∧
      c'.engine.chan.config = c.engine.chan.config ∧
      c'.engine.chan.configured = c.engine.chan.configured ∧
      c'.engine.chan.descSubmitted = c.engine.chan.descSubmitted ∧
      issues c'.engine.log = issues c.engine.log) : x.Ready way c' := by
  obtain ⟨hprep,hconfig,hconf,hsub,hissues⟩ := he
  have hfits : x.Fits c → x.Fits c' :=
    fun hf => ⟨hlen.trans hf.len,by rw [hbuf]; exact hf.stop⟩
  have hmade : ∀ d, x.Made way c d → x.Made way c' d := by
    intro d hd
    rw [Xfer.Made,hbuf]
    exact hd
  unfold Xfer.Ready at h ⊢
  rw [hprep,hconfig,hconf,hsub,hissues,hbuf]
  cases hs : x.stage <;> simp only [hs] at h ⊢
  case config => exact ⟨hfits h.1,h.2⟩
  case err => exact ⟨hfits h.1,h.2⟩
  case prep => exact ⟨hfits h.1,h.2⟩
  case issue =>
    obtain ⟨hf,h1,h2,d,h3,h4⟩ := h
    exact ⟨hfits hf,h1,h2,d,h3,hmade d h4⟩
  case wait =>
    obtain ⟨hf,h1,I,d,h3,h4⟩ := h
    exact ⟨hfits hf,h1,I,d,h3,hmade d h4⟩
  case reinit =>
    obtain ⟨hf,h2,d,h3,h4⟩ := h
    exact ⟨hfits hf,h2,d,h3,hmade d h4⟩
  case submit =>
    obtain ⟨hf,h2,d,h3,h4⟩ := h
    exact ⟨hfits hf,h2,d,h3,hmade d h4⟩
  all_goals exact h

theorem takes_ready {dev : Device} {way : Way} {x x' : Xfer} {c c' : DmaChan} {ch : Choice}
    (hplain : dev.chip.pciAddress = none) (hc : Clients c)
    (hm : x.stage.Maps x.mapping x.txdesc c) (h : x.Ready way c)
    (hdev : x.devAddr < 18446744073709551616) (hlen : x.len < 4294967296)
    (hpat : x.stage = .wait → ch.ok = true)
    (hmap : x.stage = .map → c'.mapped = c.mapped + 1 →
      ch.addr + x.len ≤ 18446744073709551616)
    (ht : x.Takes dev way c ch c' x') : x'.Ready way c' := by
  unfold Xfer.Ready at h
  cases ht with
  | map hs =>
    simp only [hs] at h
    exact ⟨⟨rfl,hmap hs rfl⟩,h⟩
  | unmapped hs =>
    simp only [hs] at h
    exact h
  | config hs he =>
    simp only [hs] at h
    cases he
    exact ⟨⟨h.1.len,h.1.stop⟩,h.2,rfl,rfl⟩
  | unprepared hs =>
    simp only [hs] at h
    exact ⟨⟨h.1.len,h.1.stop⟩,h.2.1⟩
  | @prep d e hs hd he =>
    simp only [hs] at h
    obtain ⟨hfits,hnil,hconf,hconfig⟩ := h
    have hmade : x.Made way c d := by
      rw [Xfer.Made,← hfits.len]
      exact prepSlaveSingle_burst hplain hc.solo.room hdev (by rw [hfits.len]; exact hlen) hconfig hd
    cases he
    have hprep : c.engine.prep dev.chip (slaveSingle way c.dmaBuf c.dmaLen) =
        { c.engine with prepared := c.engine.prepared ++ [d], nextVd := c.engine.nextVd + 1 }.record
          (.prep d) := by
      have hsome : deviceTransfer dev.chip c.engine.chan c.engine.nextVd
        (slaveSingle way c.dmaBuf c.dmaLen) = some d := hd
      rw [State.prep,hsome]
    rw [hprep]
    refine ⟨⟨hfits.len,hfits.stop⟩,hconf,d,?_,hmade⟩
    rw [record_prepared,hnil,List.nil_append]
  | reinit hs =>
    simp only [hs] at h
    exact ⟨⟨h.1.len,h.1.stop⟩,h.2⟩
  | submit hs he =>
    simp only [hs] at h
    obtain ⟨hfits,hconf,d,hprep,hmade⟩ := h
    rw [hs] at hm
    obtain ⟨_,hsub,_⟩ := waiting_nil hc hm.2.1
    obtain ⟨d',hd',_,rfl⟩ := step_submit_some he
    rw [hprep,List.mem_singleton] at hd'
    rw [hd']
    refine ⟨⟨hfits.len,hfits.stop⟩,?_,hconf,d,?_,hmade⟩
    · simp [State.submit,hprep]
    · simp [txSubmit,hsub]
  | issue hs he =>
    simp only [hs] at h
    obtain ⟨hfits,hprep,hconf,d,hsub,hmade⟩ := h
    cases he
    rcases solo_issued hc.solo with ⟨hno,_⟩ | ⟨_,o,hi⟩
    · rw [hconf] at hno
      contradiction
    · refine ⟨⟨hfits.len,hfits.stop⟩,?_,issues c.engine.log,d,?_,hmade⟩
      · rw [← hprep]
        unfold State.issuePending
        split <;> rfl
      · rw [hi.log,hsub]
        cases o <;> simp [issues]
  | completed hs _ =>
    simp only [hs] at h
    exact h.2.1
  | expired hs hok _ =>
    rw [hpat hs] at hok
    contradiction
  | terminate hs _ =>
    rw [hs] at hm
    exact hm.elim
  | err hs =>
    simp only [hs] at h
    exact h.2

theorem moves_readied {dev : Device} {way : Way} {s t : Session} {m : Session.Label}
    (hplain : dev.chip.pciAddress = none) (h : Accounted s) (hr : s.Readied way)
    (hx : ∀ x, s.xfer = some x → x.devAddr < 18446744073709551616 ∧ x.len < 4294967296)
    (hp : s.Patient m)
    (hmap : ∀ ch x, m = .run ch → s.xfer = some x → x.stage = .map →
      t.chan.mapped = s.chan.mapped + 1 → ch.addr + x.len ≤ 18446744073709551616)
    (hm : Session.Moves dev way s m t) : t.Readied way := by
  have hirq : ∀ {op : Op} {e : DwEdma.State}, (op = .interrupt ∨ ∃ irq, op = .finish irq) →
      DwEdma.step dev.chip s.chan.engine op = some e →
      Session.Readied way ⟨{ s.chan with engine := e },s.xfer⟩ := by
    intro op e hop he
    have hsame := irq_ready h.clients.solo hop he
    unfold Session.Readied at hr ⊢
    cases hs : s.xfer with
    | none =>
      rw [hs] at hr
      exact hsame.1.trans hr
    | some x =>
      rw [hs] at hr
      exact ready_congr hr rfl rfl hsame
  unfold Session.Readied at hr
  cases hm with
  | begin a n hn =>
    rw [hn] at hr
    exact hr
  | @run x x' c ch hs ht =>
    obtain ⟨hdev,hlen⟩ := hx x hs
    rw [hs] at hr
    exact takes_ready hplain h.clients (h.stage x hs) hr hdev hlen (hp x hs)
      (fun hst hmapped => hmap ch x rfl hs hst hmapped) ht
  | leave hs hst =>
    rw [hs] at hr
    simp only [Xfer.Ready,hst] at hr
    exact hr
  | finish he => exact hirq (Or.inr ⟨_,rfl⟩) he
  | interrupt he => exact hirq (Or.inl rfl) he
  | tasklet hd =>
    unfold Session.Readied
    cases hs : s.xfer with
    | none =>
      rw [hs] at hr
      exact hr
    | some x =>
      rw [hs] at hr
      exact ready_congr hr rfl rfl ⟨rfl,rfl,rfl,rfl,rfl⟩

/-! ## The driver in a calm run -/

/-- The invariant. -/
structure Calmed (dev : Device) (s : State) : Prop where
  owned : Owned s
  sessions : ∀ c, ∃ o, s.Running c o ∧ Accounted ⟨s.chans c,o⟩ ∧
    Session.Readied c.1 ⟨s.chans c,o⟩
  asks : ∀ k a, s.calls k = some a → ∃ pos, a.Asks dev.ram pos
  apart : ∀ c e, c ≠ e → (s.chans c).Live → (s.chans e).Live →
    Disjoint (s.chans c).area (s.chans e).area

variable {dev : Device} {s t : State} {l : Label}

theorem patient_on {c : ChanId} {o : Option Xfer} {m : Session.Label} (hg : Patient s l)
    (ho : s.Running c o) (hon : l.On s c m) : (⟨s.chans c,o⟩ : Session).Patient m := by
  cases m with
  | run ch =>
    obtain ⟨k,x,rfl,hx⟩ := hon
    intro y hy hst
    cases hy.symm.trans (running_at ho hx)
    exact hg c x hx hst
  | _ => trivial

/-- The chunk of a transfer that runs. -/
theorem Calmed.chunk (h : Calmed dev s) {k : ℕ} {c : ChanId} {x : Xfer} (hx : s.At k c x) :
    ∃ a pos, s.calls k = some a ∧ a.phase = .transfer c x ∧ a.Asks dev.ram pos ∧
      x.devAddr + x.len ≤ pos + a.sz ∧ pos ≤ x.devAddr ∧ 1 ≤ x.len ∧ x.len ≤ 1024 := by
  obtain ⟨a,ha,hp⟩ := hx
  obtain ⟨pos,hasks⟩ := h.asks k a ha
  obtain ⟨hdev,hlen,hleft⟩ := hasks.chunk c x hp
  obtain ⟨hwrap,hl,hpos⟩ := hasks.loop
  obtain ⟨hmax,hsize⟩ := loop_size_le a.loop
  have hsome := loop_size_pos hleft
  exact ⟨a,pos,ha,hp,hasks,by omega,by omega,by omega,by rw [hlen]; exact hmax⟩

/-- The chunk keeps clear of the reserved area. -/
theorem Calmed.clear (h : Calmed dev s) {k : ℕ} {c : ChanId} {x : Xfer} (hx : s.At k c x) :
    Disjoint (Set.Ico x.devAddr (x.devAddr + x.len)) (Set.Ico dev.ram.start dev.ram.stop) := by
  obtain ⟨a,pos,_,hp,hasks,hstop,hstart,_,_⟩ := h.chunk hx
  have hallowed := hasks.allowed (by rw [hp]; nofun)
  have hor : u64 (pos + a.sz) < dev.ram.start ∨ dev.ram.stop ≤ pos := by
    simpa [isAllowed] using hallowed
  have hsum : u64 (pos + a.sz) = pos + a.sz := Nat.mod_eq_of_lt hasks.loop.wrap
  rw [Set.disjoint_left]
  intro y hy hram
  rw [Set.mem_Ico] at hy hram
  omega

theorem step_mapped {k : ℕ} {ch : Choice} {c : ChanId} {x : Xfer}
    (he : step dev s (.run k ch) = some t) (hx : s.At k c x) (hst : x.stage = .map)
    (hm : (t.chans c).mapped = (s.chans c).mapped + 1) : ch.ok = true := by
  obtain ⟨a,ha,hp⟩ := hx
  obtain ⟨a',b,ha',ht,_⟩ := run_turns he
  cases ha.symm.trans ha'
  generalize t.chans = chans at ht hm
  cases ht with
  | transfer hp' hx =>
    cases hp.symm.trans hp'
    rw [Function.update_self] at hm
    cases xfer_step_takes hx with
    | map hs => exact mapped_ok hx hs rfl
    | unmapped hs => exact absurd hm (Nat.ne_of_lt (Nat.lt_succ_self _))
    | _ => simp_all
  | waits hp' _ => rw [hp] at hp'; exact hp'.elim
  | _ => simp_all

theorem Free.not_live {c : DmaChan} (h : Free c) : ¬ c.Live := by
  rw [DmaChan.Live,h.unmaps,inTurn,List.length_map,List.length_range]
  exact Nat.lt_irrefl _

theorem Mapped.live {c : DmaChan} {m : ℕ} (h : Mapped m c) : c.Live := by
  have hpos := h.pos
  rw [DmaChan.Live,h.unmaps,inTurn,List.length_map,List.length_range,h.mapped]
  omega

/-- The buffer is at the same address as before. -/
def DmaChan.Stays (c c' : DmaChan) : Prop := c'.dmaBuf = c.dmaBuf ∧ c'.dmaLen = c.dmaLen

theorem DmaChan.Stays.area {c c' : DmaChan} (h : c.Stays c') : c'.area = c.area := by
  rw [DmaChan.area,DmaChan.area,h.1,h.2]

theorem takes_area {way : Way} {x x' : Xfer} {c c' : DmaChan} {ch : Choice}
    (hm : x.stage.Maps x.mapping x.txdesc c) (ht : x.Takes dev way c ch c' x') (hl : c'.Live) :
    (c.Live ∧ c.Stays c') ∨ (x.stage = .map ∧ c'.mapped = c.mapped + 1 ∧
      c'.dmaBuf = ch.addr ∧ c'.dmaLen = x.len) := by
  cases ht with
  | map hs => exact Or.inr ⟨hs,rfl,rfl,rfl⟩
  | unmapped hs =>
    rw [hs] at hm
    exact absurd hl hm.not_live
  | err _ =>
    refine Or.inl ⟨Nat.lt_of_le_of_lt ?_ hl,rfl,rfl⟩
    simp [DmaChan.unmapSingle]
  | _ => exact Or.inl ⟨hl,rfl,rfl⟩

theorem moves_area {way : Way} {s t : Session} {m : Session.Label} (h : Accounted s)
    (hm : Session.Moves dev way s m t) (hl : t.chan.Live) :
    (s.chan.Live ∧ s.chan.Stays t.chan) ∨ ∃ ch x, m = .run ch ∧ s.xfer = some x ∧
      x.stage = .map ∧ t.chan.mapped = s.chan.mapped + 1 ∧
        t.chan.dmaBuf = ch.addr ∧ t.chan.dmaLen = x.len := by
  cases hm with
  | @run x x' c ch hs ht =>
    rcases takes_area (h.stage x hs) ht hl with hold | hnew
    · exact Or.inl hold
    · exact Or.inr ⟨ch,x,rfl,hs,hnew⟩
  | tasklet _ =>
    refine Or.inl ⟨Nat.lt_of_le_of_lt ?_ hl,rfl,rfl⟩
    simp [DmaChan.callback,DmaChan.unmapSingle]
  | _ => exact Or.inl ⟨hl,rfl,rfl⟩

/-- A live mapping is an old one, or the one that the step made. -/
theorem step_area (h : Calmed dev s) (he : step dev s l = some t) {c : ChanId}
    (hl : (t.chans c).Live) : ((s.chans c).Live ∧ (s.chans c).Stays (t.chans c)) ∨
      ∃ k ch x, l = .run k ch ∧ s.At k c x ∧ x.stage = .map ∧ ch.ok = true ∧
        (t.chans c).dmaBuf = ch.addr ∧ (t.chans c).dmaLen = x.len := by
  obtain ⟨o,ho,hacc,_⟩ := h.sessions c
  obtain ⟨o',_,⟨hc,_⟩ | ⟨m,hon,hm⟩⟩ := step_follows h.owned he ho
  · rw [hc] at hl ⊢
    exact Or.inl ⟨hl,rfl,rfl⟩
  · rcases moves_area hacc hm hl with hold | ⟨ch,x,rfl,hx,hst,hmapped,harea⟩
    · exact Or.inl hold
    · obtain ⟨k,y,rfl,hy⟩ := hon
      cases hx.symm.trans (running_at ho hy)
      exact Or.inr ⟨k,ch,x,rfl,hy,hst,step_mapped he hy hst hmapped,harea⟩

/-- The call that has made a live mapping. -/
theorem Calmed.owner (h : Calmed dev s) {c : ChanId} (hl : (s.chans c).Live) :
    ∃ k x, s.At k c x ∧ (∀ ret, x.stage ≠ .returned ret) ∧ x.stage ≠ .map ∧
      Mapped x.mapping (s.chans c) := by
  obtain ⟨o,ho,hacc,_⟩ := h.sessions c
  rcases accounted_cases hacc with hf | ⟨x,hx,hst,hm,_⟩
  · exact absurd hl hf.not_live
  · obtain ⟨k,hk⟩ := (ho x).mp hx
    refine ⟨k,x,hk,hst,fun hmap => ?_,hm⟩
    have hfree := hacc.stage x hx
    rw [hmap] at hfree
    exact hfree.not_live hl

/-- The step of another call, or of none. -/
theorem step_others (he : step dev s l = some t) {k : ℕ} (hrun : ∀ ch, l ≠ .run k ch)
    (henter : ∀ way pos sz ok, l ≠ .enter k way pos sz ok) :
    Option.Rel Call.Rests (s.calls k) (t.calls k) := by
  have hsame : t.calls k = s.calls k → Option.Rel Call.Rests (s.calls k) (t.calls k) := by
    intro h
    rw [h]
    cases s.calls k with
    | none => exact .none
    | some a => exact .some (Or.inl rfl)
  cases l with
  | enter j way pos sz ok =>
    simp only [step] at he
    split at he
    · cases he
      refine hsame (Function.update_of_ne ?_ ..)
      rintro rfl
      exact henter way pos sz ok rfl
    · contradiction
  | run j ch =>
    obtain ⟨_,_,_,_,_,hothers⟩ := run_turns he
    refine hothers k ?_
    rintro rfl
    exact hrun ch rfl
  | finish c irq =>
    obtain ⟨d,_,rfl⟩ := Option.map_eq_some_iff.mp he
    exact hsame rfl
  | interrupt c =>
    obtain ⟨d,_,rfl⟩ := Option.map_eq_some_iff.mp he
    exact hsame rfl
  | tasklet c =>
    obtain ⟨d,_,rfl⟩ := Option.map_eq_some_iff.mp he
    exact hsame rfl

theorem rests_after {o o' : Option Call} (h : Option.Rel Call.Rests o o') (ha : o = some a) :
    ∃ b, o' = some b ∧ a.Rests b := by
  cases h with
  | some hr =>
    cases ha
    exact ⟨_,rfl,hr⟩
  | none => contradiction

theorem rests_before {o o' : Option Call} (h : Option.Rel Call.Rests o o') (hb : o' = some b) :
    ∃ a, o = some a ∧ a.Rests b := by
  cases h with
  | some hr =>
    cases hb
    exact ⟨_,rfl,hr⟩
  | none => contradiction

/-- What a step makes of a call: it enters, it turns, or it rests. -/
theorem step_call (he : step dev s l = some t) {k : ℕ} (hb : t.calls k = some b) :
    (∃ way pos sz ok, l = .enter k way pos sz ok ∧ s.calls k = none ∧
      b = Call.enter dev way pos sz ok) ∨
    (∃ ch a, l = .run k ch ∧ s.calls k = some a ∧ a.Turns dev s ch b t.chans) ∨
    (∀ ch, l ≠ .run k ch) ∧ ∃ a, s.calls k = some a ∧ a.Rests b := by
  by_cases henter : ∃ way pos sz ok, l = .enter k way pos sz ok
  · obtain ⟨way,pos,sz,ok,rfl⟩ := henter
    simp only [step] at he
    split at he
    · rename_i hnone
      cases he
      rw [setCall_calls,if_pos rfl] at hb
      exact Or.inl ⟨way,pos,sz,ok,rfl,hnone,(Option.some.inj hb).symm⟩
    · contradiction
  · by_cases hrun : ∃ ch, l = .run k ch
    · obtain ⟨ch,rfl⟩ := hrun
      obtain ⟨a,b',ha,ht,hb',_⟩ := run_turns he
      cases hb.symm.trans hb'
      exact Or.inr (Or.inl ⟨ch,a,rfl,ha,ht⟩)
    · have hne : ∀ ch, l ≠ .run k ch := fun ch hl => hrun ⟨ch,hl⟩
      have hrel := step_others he hne fun way pos sz ok hl => henter ⟨way,pos,sz,ok,hl⟩
      exact Or.inr (Or.inr ⟨hne,rests_before hrel hb⟩)

theorem step_asks (h : Calmed dev s) (hg : Calm s l) (he : step dev s l = some t) {k : ℕ}
    (hb : t.calls k = some b) : ∃ pos, b.Asks dev.ram pos := by
  rcases step_call he hb with ⟨way,pos,sz,ok,rfl,_,rfl⟩ | ⟨ch,a,rfl,ha,ht⟩ | ⟨_,a,ha,hr⟩
  · exact ⟨pos,enter_asks dev way ok hg.2⟩
  · obtain ⟨pos,hasks⟩ := h.asks k a ha
    exact ⟨pos,(turns_asks hasks ht).1⟩
  · obtain ⟨pos,hasks⟩ := h.asks k a ha
    exact ⟨pos,rests_asks hasks hr⟩

theorem step_apart (h : Calmed dev s) (hg : Calm s l) (he : step dev s l = some t) {c e : ChanId}
    (hne : c ≠ e) (hc : (t.chans c).Live) (hd : (t.chans e).Live) :
    Disjoint (t.chans c).area (t.chans e).area := by
  -- a new mapping lies beside an old one
  have hnew : ∀ {c e : ChanId} {k : ℕ} {ch : Choice} {x : Xfer}, c ≠ e → l = .run k ch →
      s.At k c x → x.stage = .map → ch.ok = true →
      (t.chans c).dmaBuf = ch.addr ∧ (t.chans c).dmaLen = x.len → (s.chans e).Live →
      (s.chans e).Stays (t.chans e) → Disjoint (t.chans c).area (t.chans e).area := by
    rintro c e k ch x hne rfl hx hst hok ⟨hbuf,hlen⟩ hlive hold
    rw [hold.area,DmaChan.area,hbuf,hlen]
    exact (hg.2 c x hx hst hok).2 e (Ne.symm hne) hlive
  rcases step_area h he hc with ⟨hlc,hac⟩ | ⟨k,ch,x,hl,hx,hst,hok,hac⟩
  · rcases step_area h he hd with ⟨hle,hae⟩ | ⟨k,ch,x,hl,hx,hst,hok,hae⟩
    · rw [hac.area,hae.area]
      exact h.apart c e hne hlc hle
    · exact (hnew (Ne.symm hne) hl hx hst hok hae hlc hac).symm
  · rcases step_area h he hd with ⟨hle,hae⟩ | ⟨k',ch',x',hl',hx',_,_,_⟩
    · exact hnew hne hl hx hst hok hac hle hae
    · -- one call cannot map on two channels
      cases hl.symm.trans hl'
      obtain ⟨a,ha,hp⟩ := hx
      obtain ⟨a',ha',hp'⟩ := hx'
      cases ha.symm.trans ha'
      cases hp.symm.trans hp'
      exact absurd rfl hne

theorem step_calmed (hplain : dev.chip.pciAddress = none) (h : Calmed dev s) (hg : Calm s l)
    (he : step dev s l = some t) : Calmed dev t := by
  refine ⟨step_owned h.owned he,fun c => ?_,fun _ _ hb => step_asks h hg he hb,
    fun _ _ hne hc hd => step_apart h hg he hne hc hd⟩
  obtain ⟨o,ho,hacc,hready⟩ := h.sessions c
  obtain ⟨o',ho',⟨hc,rfl⟩ | ⟨m,hon,hm⟩⟩ := step_follows h.owned he ho
  · exact ⟨o',ho',by rw [hc]; exact hacc,by rw [hc]; exact hready⟩
  · have hp := patient_on hg.1 ho hon
    refine ⟨o',ho',moves_accounted hacc hp hm,moves_readied hplain hacc hready ?_ hp ?_ hm⟩
    · intro x hx
      obtain ⟨k,hk⟩ := (ho x).mp hx
      obtain ⟨a,pos,_,_,hasks,hstop,_,_,hmax⟩ := h.chunk hk
      have hwrap := hasks.loop.wrap
      exact ⟨by omega,by omega⟩
    · rintro ch x rfl hx hst hmapped
      obtain ⟨k,y,rfl,hy⟩ := hon
      cases hx.symm.trans (running_at ho hy)
      exact (hg.2 c x hy hst (step_mapped he hy hst hmapped)).1

theorem calmed_init (dev : Device) : Calmed dev (State.init dev) where
  owned := owned_init dev
  sessions c := by
    refine ⟨none,?_,⟨init_clients dev c,fun x hx => by contradiction,fun _ => ⟨rfl,rfl⟩⟩,rfl⟩
    intro x
    constructor
    · intro hx
      contradiction
    · rintro ⟨k,a,ha,_⟩
      contradiction
  asks k a ha := by contradiction
  apart c e _ hc _ := absurd hc (Nat.lt_irrefl 0)

/-- A transfer that is not over goes on, on its channel and with its chunk. -/
theorem step_chunk {k : ℕ} {c : ChanId} {x : Xfer} (he : step dev s l = some t)
    (ha : s.calls k = some a) (hp : a.phase = .transfer c x) (hs : ∀ ret, x.stage ≠ .returned ret) :
    ∃ b x', t.calls k = some b ∧ b.phase = .transfer c x' ∧ b.loop = a.loop ∧
      x'.devAddr = x.devAddr ∧ x'.len = x.len := by
  by_cases hrun : ∃ ch, l = .run k ch
  · obtain ⟨ch,rfl⟩ := hrun
    obtain ⟨a',b,ha',ht,hb,_⟩ := run_turns he
    cases ha.symm.trans ha'
    generalize t.chans = chans at ht
    cases ht with
    | transfer hp' hx =>
      cases hp.symm.trans hp'
      exact ⟨_,_,hb,rfl,rfl,takes_same (xfer_step_takes hx)⟩
    | failed hp' hs' _ =>
      cases hp.symm.trans hp'
      exact absurd hs' (hs _)
    | received hp' hs' _ _ =>
      cases hp.symm.trans hp'
      exact absurd hs' (hs _)
    | sent hp' hs' _ _ =>
      cases hp.symm.trans hp'
      exact absurd hs' (hs _)
    | waits hp' _ => rw [hp] at hp'; exact hp'.elim
    | finished hp' _ => cases hp.symm.trans hp'
    | fault hp' _ _ _ => cases hp.symm.trans hp'
    | begin hp' _ _ => cases hp.symm.trans hp'
    | copied hp' _ => cases hp.symm.trans hp'
    | uncopied hp' _ => cases hp.symm.trans hp'
    | released hp' => cases hp.symm.trans hp'
  · have henter : ∀ way pos sz ok, l ≠ .enter k way pos sz ok := by
      rintro way pos sz ok rfl
      simp [step,ha] at he
    obtain ⟨b,hb,hr⟩ := rests_after (step_others he (fun ch hl => hrun ⟨ch,hl⟩) henter) ha
    obtain ⟨_,_,hloop,hphase | ⟨⟨_,hsleep⟩,_⟩⟩ := rests_same hr
    · exact ⟨b,x,hb,hphase.trans hp,hloop,rfl,rfl⟩
    · rw [hp] at hsleep
      contradiction

theorem step_at {k : ℕ} {c : ChanId} {x : Xfer} (he : step dev s l = some t) (hx : s.At k c x)
    (hs : ∀ ret, x.stage ≠ .returned ret) : ∃ x', t.At k c x' := by
  obtain ⟨a,ha,hp⟩ := hx
  obtain ⟨b,x',hb,hq,_⟩ := step_chunk he ha hp hs
  exact ⟨x',b,hb,hq⟩

end AkidaEdma.Driver
