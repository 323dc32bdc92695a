import AkidaEdma.System.InFlight

/-! # Which step writes which byte

In a calm run a byte of the device outside of the lists changes only with an element of a call
that writes, and one of the host only with an element of a call that reads, or where a call that
writes maps its buffer.
-/
namespace AkidaEdma.DataPath
open Transition BlockCopy Footprint
open AkidaEdma.Driver (ChanId DmaChan Xfer Choice Way Device Calm Calmed)
open AkidaEdma.Execution (Machine Setup Ch Move Lane)
open AkidaEdma.DwEdma (Op Burst Desc Bus bursts issues)

variable {w : Installation} {s t u : System}

theorem run_inside {β : Type*} {c : Copy} {i : ℕ} (h : i < c.len) (read write : ℕ → β) :
    c.run read write (c.dst + i) = read (c.src + i) := overwrite_inside _ _ h

theorem run_outside {β : Type*} {c : Copy} {x : ℕ} (h : x ∉ c.target) (read write : ℕ → β) :
    c.run read write x = write x := overwrite_outside _ _ h

theorem run_cases {β : Type*} (c : Copy) (read write : ℕ → β) (x : ℕ) :
    c.run read write x = write x ∨
      ∃ i, i < c.len ∧ x = c.dst + i ∧ c.run read write x = read (c.src + i) := by
  by_cases hx : x ∈ c.target
  · obtain ⟨i,rfl⟩ := Nat.exists_eq_add_of_le hx.1
    have hi : i < c.len := Nat.lt_of_add_lt_add_left hx.2
    exact Or.inr ⟨i,hi,rfl,run_inside hi _ _⟩
  · exact Or.inl (run_outside hx _ _)

/-! ## The copies of a step -/

/-- What the copies at a step of the driver can be. -/
inductive Copied (s : System) : Driver.Label → System → Prop
  | none (l : Driver.Label) : Copied s l s
  | fromUser {k m : ℕ} {ch : Choice} {a : Driver.Call} {c : ChanId}
      (ha : s.driver.calls k = some a) (hp : a.phase = .loop c) :
      Copied s (.run k ch) (s.copyFromUser k a.loop.usrBuf m)
  | toUser {k m : ℕ} {ch : Choice} {a : Driver.Call} {c : ChanId}
      (ha : s.driver.calls k = some a) (hp : a.phase = .copy c) (hm : m ≤ a.loop.size) :
      Copied s (.run k ch) (s.copyToUser k a.loop.usrBuf m)
  | map {k : ℕ} {ch : Choice} {c : ChanId} {x : Xfer} (hx : s.driver.At k c x)
      (hs : x.stage = .map) (hok : ch.ok = true) :
      Copied s (.run k ch) (s.mapSingle c k ch.addr x.len)
  | unmap {k : ℕ} {ch : Choice} {c : ChanId} {x : Xfer} {ret : ℤ} (hx : s.driver.At k c x)
      (hs : x.stage = .err ret) : Copied s (.run k ch) (s.unmapSingle c)
  | callback (c : ChanId) : Copied s (.tasklet c) (s.unmapSingle c)

theorem copies_copied (s : System) (l : Driver.Label) (n : ℕ) : Copied s l (s.copies l n) := by
  cases l with
  | run k ch =>
    unfold System.copies
    dsimp only
    split
    · exact .none _
    · rename_i a ha
      split
      · rename_i c hp
        split
        · exact .fromUser ha hp
        · exact .none _
      · rename_i c x hp
        split
        · rename_i hs
          split
          · rename_i hok
            exact .map ⟨a,ha,hp⟩ hs hok
          · exact .none _
        · rename_i ret hs
          exact .unmap ⟨a,ha,hp⟩ hs
        · exact .none _
      · rename_i c hp
        refine .toUser ha hp ?_
        split
        · exact Nat.le_refl _
        · exact Nat.min_le_right _ _
      · exact .none _
  | tasklet c => exact .callback c
  | _ => exact .none _

theorem mapSingle_far (s : System) (c : ChanId) (k addr len y : ℕ) :
    (s.mapSingle c k addr len).machine.bus.far y = s.machine.bus.far y ∨
      c.1 = .tx ∧ ∃ i, i < len ∧ y = addr + i ∧
        (s.mapSingle c k addr len).machine.bus.far y = s.tmp k i := by
  unfold System.mapSingle
  dsimp only
  split
  · rename_i hway
    rcases run_cases (Copy.mk 0 addr len) (s.tmp k) s.machine.bus.far y with h | ⟨i,hi,hy,h⟩
    · exact Or.inl h
    · rw [Nat.zero_add] at h
      exact Or.inr ⟨hway,i,hi,hy,h⟩
  · exact Or.inl rfl

theorem unmapSingle_machine (s : System) (c : ChanId) : (s.unmapSingle c).machine = s.machine ∧
    (s.unmapSingle c).user = s.user ∧ (s.unmapSingle c).buffer = s.buffer := by
  unfold System.unmapSingle
  split <;> exact ⟨rfl,rfl,rfl⟩

theorem unmapSingle_tmp (s : System) (c : ChanId) (k : ℕ) :
    (s.unmapSingle c).tmp k = s.tmp k ∨ c.1 = .rx ∧ s.buffer c = k ∧ (s.unmapSingle c).tmp k =
      (Copy.mk (s.driver.chans c).dmaBuf 0 (s.driver.chans c).dmaLen).run s.machine.bus.far
        (s.tmp k) := by
  unfold System.unmapSingle
  dsimp only
  split
  · rename_i hway
    by_cases hk : s.buffer c = k
    · refine Or.inr ⟨hway,hk,?_⟩
      subst hk
      exact Function.update_self ..
    · exact Or.inl (Function.update_of_ne (Ne.symm hk) ..)
  · exact Or.inl rfl

/-- Only its own steps write to the buffer of the user. -/
theorem Copied.user {l : Driver.Label} (h : Copied s l u) {k : ℕ} (hne : ∀ ch, l ≠ .run k ch) :
    u.user k = s.user k := by
  cases h with
  | @toUser j m ch a c _ _ _ =>
    refine Function.update_of_ne ?_ ..
    rintro rfl
    exact hne ch rfl
  | unmap _ _ => rw [(unmapSingle_machine ..).2.1]
  | callback _ => rw [(unmapSingle_machine ..).2.1]
  | _ => rfl

theorem Copied.far {l : Driver.Label} (h : Copied s l u) (y : ℕ) :
    u.machine.bus.far y = s.machine.bus.far y ∨ ∃ k ch c x i, l = .run k ch ∧ s.driver.At k c x ∧
      x.stage = .map ∧ ch.ok = true ∧ c.1 = .tx ∧ i < x.len ∧ y = ch.addr + i ∧
        u.machine.bus.far y = s.tmp k i := by
  cases h with
  | @map k ch c x hx hs hok =>
    rcases mapSingle_far s c k ch.addr x.len y with h | ⟨hway,i,hi,hy,h⟩
    · exact Or.inl h
    · exact Or.inr ⟨k,ch,c,x,i,rfl,hx,hs,hok,hway,hi,hy,h⟩
  | unmap _ _ => rw [(unmapSingle_machine ..).1]; exact Or.inl rfl
  | callback _ => rw [(unmapSingle_machine ..).1]; exact Or.inl rfl
  | _ => exact Or.inl rfl

theorem Copied.buffer {l : Driver.Label} (h : Copied s l u) (c : ChanId) :
    u.buffer c = s.buffer c ∨ ∃ k ch x, l = .run k ch ∧ s.driver.At k c x ∧ x.stage = .map := by
  cases h with
  | @map k ch e x hx hs _ =>
    by_cases hc : c = e
    · rw [hc]
      exact Or.inr ⟨k,ch,x,rfl,hx,hs⟩
    · exact Or.inl (Function.update_of_ne hc ..)
  | unmap _ _ => rw [(unmapSingle_machine ..).2.2]; exact Or.inl rfl
  | callback _ => rw [(unmapSingle_machine ..).2.2]; exact Or.inl rfl
  | _ => exact Or.inl rfl

/-! ## Whose buffer a channel has mapped -/

/-- A live mapping is of the buffer of the call that has the channel. -/
def Lent (s : System) : Prop :=
  ∀ k c x, s.driver.At k c x → (s.driver.chans c).Live → s.buffer c = k

theorem at_unique {d : Driver.State} (h : Driver.Owned d) {k j : ℕ} {c : ChanId} {x y : Xfer}
    (hk : d.At k c x) (hj : d.At j c y) : k = j := h.unique k j c hk.has hj.has

theorem step_lent {l : Label} (h : Joined w s) (hl : Lent s) (hg : CalmStep s l)
    (he : step w s l = some t) : Lent t := by
  intro k c x hx hlive
  have hjoined := step_joined h hg he
  cases l with
  | element e =>
    obtain ⟨m,_,rfl⟩ := step_element he
    exact hl k c x hx hlive
  | driver l n =>
    obtain ⟨hd,_,_,_,hbuffer⟩ := step_driver he
    rw [hbuffer]
    rcases Driver.step_area h.calm hd hlive with ⟨hold,_⟩ | ⟨j,ch,y,rfl,hy,hst,hok,_⟩
    · obtain ⟨j,y,hy,hret,hmap,_⟩ := h.calm.owner hold
      obtain ⟨x',hx'⟩ := Driver.step_at hd hy hret
      rw [at_unique hjoined.calm.owned hx hx',← hl j c y hy hold]
      rcases (copies_copied s l n).buffer c with heq | ⟨i,ch,z,_,hz,hst⟩
      · exact heq
      · -- the channel is not mapped once more
        obtain ⟨a,ha,hp⟩ := hz
        obtain rfl := at_unique h.calm.owned hy ⟨a,ha,hp⟩
        obtain ⟨b,hb,hq⟩ := hy
        cases ha.symm.trans hb
        cases hp.symm.trans hq
        exact absurd hst hmap
    · obtain ⟨x',hx'⟩ := Driver.step_at hd hy (by rw [hst]; nofun)
      rw [at_unique hjoined.calm.owned hx hx']
      obtain ⟨a,ha,hp⟩ := hy
      simp only [System.copies,ha,hp,hst,hok,if_true]
      exact Function.update_self ..

/-! ## The steps of the others -/

theorem step_user {l : Label} (he : step w s l = some t) {k : ℕ}
    (hne : ∀ ch n, l ≠ .driver (.run k ch) n) : t.user k = s.user k := by
  cases l with
  | element c =>
    obtain ⟨m,_,rfl⟩ := step_element he
    rfl
  | driver l n =>
    obtain ⟨_,_,_,huser,_⟩ := step_driver he
    rw [huser]
    refine (copies_copied s l n).user fun ch hl => ?_
    rw [hl] at hne
    exact hne ch n rfl

/-- A callback runs for the call that has the channel. -/
theorem tasklet_at (h : Joined w s) {c : ChanId} {d : Driver.State}
    (he : Driver.step w.dev s.driver (.tasklet c) = some d) :
    ∃ k x, s.driver.At k c x ∧ (s.driver.chans c).Live ∧ x.Fits (s.driver.chans c) ∧
      (s.driver.chans c).engine.chan.descIssued = [] := by
  obtain ⟨d',hd,_⟩ := Option.map_eq_some_iff.mp he
  obtain ⟨f,hf,_⟩ := Option.map_eq_some_iff.mp hd
  have hw := Driver.tasklet_waiting hf
  obtain ⟨o,ho,hacc,hready⟩ := h.calm.sessions c
  have hnot : (s.driver.chans c).waiting ≠ [] := by
    rw [hw]
    exact List.cons_ne_nil _ _
  rcases Driver.accounted_cases hacc with hfree | ⟨x,hx,hst,hm,_⟩
  · exact absurd hfree.waiting hnot
  · obtain ⟨k,hk⟩ := (ho x).mp hx
    have hmaps := hacc.stage x hx
    dsimp only at hx
    subst hx
    -- with one descriptor on the channel, and that completed, none is issued
    have hone : ∀ vd, (s.driver.chans c).waiting = [vd] →
        (s.driver.chans c).engine.chan.descIssued = [] := by
      intro vd hvd
      have hlen := congrArg List.length (Driver.waiting_eq hacc.clients)
      have hdrop : ((s.driver.chans c).engine.chan.descCompleted.drop
          (s.driver.chans c).called).length ≠ 0 := by
        obtain ⟨hlt,_⟩ := List.getElem?_eq_some_iff.mp hf
        rw [List.length_drop]
        omega
      dsimp only at hlen
      rw [hvd] at hlen
      simp only [List.length_map,List.length_append,List.length_singleton] at hlen
      exact List.length_eq_zero_iff.mp (by omega)
    have howed : Driver.Owed x.mapping x.txdesc (s.driver.chans c) →
        (s.driver.chans c).engine.chan.descIssued = [] := by
      rintro (⟨_,hvd,_⟩ | ⟨hfree,_⟩)
      · exact hone _ hvd
      · exact absurd hfree.waiting hnot
    simp only [Driver.Session.Readied,Xfer.Ready] at hready
    refine ⟨k,x,hk,hm.live,?_⟩
    cases hs : x.stage <;> simp only [hs] at hmaps hready
    case issue => exact ⟨hready.1,howed hmaps⟩
    case wait => exact ⟨hready.1,howed hmaps⟩
    case map => exact absurd hmaps.waiting hnot
    case returned ret => exact absurd hmaps.waiting hnot
    case config => exact absurd hmaps.2 hnot
    case prep => exact absurd hmaps.2 hnot
    case err ret => exact absurd hmaps.2 hnot
    case reinit => exact absurd hmaps.2.1 hnot
    case submit => exact absurd hmaps.2.1 hnot
    case terminate => exact hmaps.elim

/-- Only its own steps, and the callback of its descriptor, write to the buffer of a call. -/
theorem step_tmp {l : Label} (h : Joined w s) (hlent : Lent s) (he : step w s l = some t) {k : ℕ}
    (hne : ∀ ch n, l ≠ .driver (.run k ch) n) : t.tmp k = s.tmp k ∨
      ∃ c x n, l = .driver (.tasklet c) n ∧ s.driver.At k c x ∧ c.1 = .rx ∧
        t.tmp k = (Copy.mk (s.driver.chans c).dmaBuf 0 (s.driver.chans c).dmaLen).run
          s.machine.bus.far (s.tmp k) := by
  cases l with
  | element c =>
    obtain ⟨m,_,rfl⟩ := step_element he
    exact Or.inl rfl
  | driver l n =>
    obtain ⟨hd,_,htmp,_,_⟩ := step_driver he
    rw [htmp]
    have hrun : ∀ ch, l ≠ .run k ch := by
      rintro ch rfl
      exact hne ch n rfl
    have hcopied := copies_copied s l n
    generalize s.copies l n = u at hcopied
    cases hcopied with
    | @fromUser j m ch a c _ _ =>
      refine Or.inl (Function.update_of_ne ?_ ..)
      rintro rfl
      exact hrun ch rfl
    | @unmap j ch c x ret hx hs =>
      rcases unmapSingle_tmp s c k with heq | ⟨_,hk,_⟩
      · exact Or.inl heq
      · have hmaps := (h.at hx).1.stage x rfl
        rw [hs] at hmaps
        have hj := hlent j c x hx hmaps.1.live
        rw [hk] at hj
        rw [hj] at hrun
        exact absurd rfl (hrun ch)
    | callback c =>
      rcases unmapSingle_tmp s c k with heq | ⟨hway,hk,heq⟩
      · exact Or.inl heq
      · obtain ⟨j,x,hx,hlive,_⟩ := tasklet_at h hd
        obtain rfl := hk.symm.trans (hlent j c x hx hlive)
        exact Or.inr ⟨c,x,n,rfl,hx,hway,heq⟩
    | _ => exact Or.inl rfl

/-- The bytes of the host as the device sees them. -/
theorem step_far {l : Label} (h : Joined w s) (hg : CalmStep s l) (he : step w s l = some t)
    (y : ℕ) : t.machine.bus.far y = s.machine.bus.far y ∨
      (∃ k c x i, l = .element c ∧ c.1 = .rx ∧ s.driver.At k c x ∧ x.stage = .wait ∧
        (s.driver.chans c).Live ∧ i < x.len ∧ i < (s.driver.chans c).dmaLen ∧
        y = (s.driver.chans c).dmaBuf + i ∧
        t.machine.bus.far y = s.machine.bus.near (x.devAddr + i)) ∨
      ∃ k ch n c x i, l = .driver (.run k ch) n ∧ s.driver.At k c x ∧ x.stage = .map ∧
        ch.ok = true ∧ c.1 = .tx ∧ i < x.len ∧ y = ch.addr + i ∧
        t.machine.bus.far y = s.tmp k i := by
  cases l with
  | element c =>
    obtain ⟨m,hm,rfl⟩ := step_element he
    obtain ⟨k,x,hf⟩ := h.flight hm
    dsimp only
    rw [hf.bus]
    cases hway : c.1 with
    | tx => exact Or.inl rfl
    | rx =>
      rcases run_cases (Copy.mk x.devAddr (s.driver.chans c).dmaBuf x.len) s.machine.bus.near
        s.machine.bus.far y with heq | ⟨i,hi,hy,heq⟩
      · exact Or.inl heq
      · exact Or.inr (Or.inl ⟨k,c,x,i,rfl,hway,hf.runs,hf.stage,hf.mapped.live,hi,
          hf.fits.len.symm ▸ hi,hy,heq⟩)
  | driver l n =>
    obtain ⟨hd,hm,_⟩ := step_driver he
    obtain ⟨_,_,hbus⟩ := follow_joined h hg hd hm
    rw [hbus.far]
    rcases (copies_copied s l n).far y with heq | ⟨k,ch,c,x,i,rfl,hfar⟩
    · exact Or.inl heq
    · exact Or.inr (Or.inr ⟨k,ch,n,c,x,i,rfl,hfar⟩)

/-- The bytes of the device. -/
theorem step_near {l : Label} (h : Joined w s) (hg : CalmStep s l) (he : step w s l = some t)
    {y : ℕ} (hy : y ∉ w.setup.lists (Set.range hw)) :
    t.machine.bus.near y = s.machine.bus.near y ∨
      ∃ k c x i, l = .element c ∧ c.1 = .tx ∧ s.driver.At k c x ∧ x.stage = .wait ∧
        (s.driver.chans c).Live ∧ i < x.len ∧ y = x.devAddr + i ∧
        t.machine.bus.near y = s.machine.bus.far ((s.driver.chans c).dmaBuf + i) := by
  cases l with
  | element c =>
    obtain ⟨m,hm,rfl⟩ := step_element he
    obtain ⟨k,x,hf⟩ := h.flight hm
    dsimp only
    rw [hf.bus]
    cases hway : c.1 with
    | rx => exact Or.inl rfl
    | tx =>
      rcases run_cases (Copy.mk (s.driver.chans c).dmaBuf x.devAddr x.len) s.machine.bus.far
        s.machine.bus.near y with heq | ⟨i,hi,hy,heq⟩
      · exact Or.inl heq
      · exact Or.inr ⟨k,c,x,i,rfl,hway,hf.runs,hf.stage,hf.mapped.live,hi,hy,heq⟩
  | driver l n =>
    obtain ⟨hd,hm,_⟩ := step_driver he
    obtain ⟨_,_,hbus⟩ := follow_joined h hg hd hm
    have hsame : (s.copies l n).machine.bus.near = s.machine.bus.near :=
      (copies_machine s l n).2.2.2.1
    rw [hbus.near hy,hsame]
    exact Or.inl rfl

/-- What is mapped keeps its bytes, but for an element of its own. -/
theorem area_kept {l : Label} (h : Joined w s) (hg : CalmStep s l) (he : step w s l = some t)
    {c : ChanId} (hlive : (s.driver.chans c).Live) (hne : c.1 = .rx → l ≠ .element c) {y : ℕ}
    (hy : y ∈ (s.driver.chans c).area) : t.machine.bus.far y = s.machine.bus.far y := by
  rcases step_far h hg he y with heq | ⟨k,e,x,i,rfl,hway,_,_,hl,_,hi,hye,_⟩ |
    ⟨k,ch,n,e,x,i,rfl,hx,hst,hok,_,hi,hye,_⟩
  · exact heq
  · have hce : c ≠ e := by
      rintro rfl
      exact hne hway rfl
    have hmem : y ∈ (s.driver.chans e).area := by
      rw [hye]
      exact ⟨Nat.le_add_right _ _,Nat.add_lt_add_left hi _⟩
    exact absurd hmem (Set.disjoint_left.mp (h.calm.apart c e hce hlive hl) hy)
  · have hce : c ≠ e := by
      rintro rfl
      have hmaps := (h.at hx).1.stage x rfl
      rw [hst] at hmaps
      exact hmaps.not_live hlive
    have hmem : y ∈ Set.Ico ch.addr (ch.addr + x.len) := by
      rw [hye]
      exact ⟨Nat.le_add_right _ _,Nat.add_lt_add_left hi _⟩
    exact absurd hy (Set.disjoint_left.mp ((hg.2 e x hx hst hok).2 c hce hlive) hmem)

/-! ## What a call that writes has shown to the device -/

/-- The buffer of a call that writes holds its chunk, and so does the memory that is mapped. -/
structure Loaded (w : Installation) (s : System) : Prop where
  joined : Joined w s
  lent : Lent s
  staged : ∀ k a c x, s.driver.calls k = some a → a.phase = .transfer c x → c.1 = .tx →
    ∀ i < x.len, s.tmp k i = s.user k (a.loop.usrBuf + i)
  shown : ∀ k a c x, s.driver.calls k = some a → a.phase = .transfer c x → c.1 = .tx →
    (s.driver.chans c).Live → ∀ i < x.len,
      s.machine.bus.far ((s.driver.chans c).dmaBuf + i) = s.user k (a.loop.usrBuf + i)

/-- The mapping of a transfer is as long as its chunk. -/
theorem Joined.fits (h : Joined w s) {k : ℕ} {c : ChanId} {x : Xfer} (hx : s.driver.At k c x)
    (hl : (s.driver.chans c).Live) : x.Fits (s.driver.chans c) := by
  obtain ⟨hacc,hready⟩ := h.at hx
  have hmaps := hacc.stage x rfl
  simp only [Xfer.Ready] at hready
  cases hst : x.stage <;> simp only [hst] at hmaps hready
  case map => exact absurd hl hmaps.not_live
  case returned ret => exact absurd hl hmaps.not_live
  case terminate => exact hmaps.elim
  all_goals exact hready.1

/-- A step of a transfer writes to no more than the buffer that it unmaps. -/
theorem Copied.transfer {k : ℕ} {ch : Choice} {c : ChanId} {x : Xfer} (h : Copied s (.run k ch) u)
    (hx : s.driver.At k c x) : u.user = s.user ∧ (c.1 = .tx → u.tmp = s.tmp) := by
  obtain ⟨a,ha,hp⟩ := hx
  cases h with
  | none => exact ⟨rfl,fun _ => rfl⟩
  | fromUser ha' hp' =>
    cases ha.symm.trans ha'
    cases hp.symm.trans hp'
  | toUser ha' hp' _ =>
    cases ha.symm.trans ha'
    cases hp.symm.trans hp'
  | map _ _ _ => exact ⟨rfl,fun _ => rfl⟩
  | unmap hx' _ =>
    obtain ⟨a',ha',hp'⟩ := hx'
    cases ha.symm.trans ha'
    cases hp.symm.trans hp'
    refine ⟨(unmapSingle_machine ..).2.1,fun hway => ?_⟩
    have hno : c.1 ≠ .rx := by rw [hway]; nofun
    simp only [System.unmapSingle,if_neg hno]

theorem transfer_user {l : Label} (he : step w s l = some t) {k : ℕ} {c : ChanId} {x : Xfer}
    (hx : s.driver.At k c x) : t.user k = s.user k := by
  by_cases hown : ∃ ch n, l = .driver (.run k ch) n
  · obtain ⟨ch,n,rfl⟩ := hown
    obtain ⟨_,_,_,huser,_⟩ := step_driver he
    rw [huser,((copies_copied s (.run k ch) n).transfer hx).1]
  · exact step_user he fun ch n hl => hown ⟨ch,n,hl⟩

theorem mapSingle_tx {c : ChanId} (hway : c.1 = .tx) (s : System) (k addr : ℕ) {len i : ℕ}
    (hi : i < len) : (s.mapSingle c k addr len).machine.bus.far (addr + i) = s.tmp k i := by
  simp only [System.mapSingle,hway,if_true]
  have hin := run_inside (c := Copy.mk 0 addr len) hi (s.tmp k) s.machine.bus.far
  rw [Nat.zero_add] at hin
  exact hin

theorem step_staged {l : Label} (h : Loaded w s) (he : step w s l = some t) {k : ℕ}
    {b : Driver.Call} {c : ChanId} {x : Xfer} (hb : t.driver.calls k = some b)
    (hp : b.phase = .transfer c x) (hway : c.1 = .tx) {i : ℕ} (hi : i < x.len) :
    t.tmp k i = t.user k (b.loop.usrBuf + i) := by
  cases l with
  | element e =>
    obtain ⟨m,_,rfl⟩ := step_element he
    exact h.staged k b c x hb hp hway i hi
  | driver l n =>
    obtain ⟨hd,_,htmp,huser,_⟩ := step_driver he
    rcases Driver.step_call hd hb with ⟨way,pos,sz,ok,_,_,rfl⟩ | ⟨ch,a,rfl,ha,ht⟩ | ⟨hne,a,ha,hr⟩
    · obtain ⟨_,hnone,_⟩ := Driver.sane_enter w.dev way pos sz ok
      rw [hp] at hnone
      contradiction
    · generalize t.driver.chans = chans at ht
      cases ht with
      | @begin c' hp' hl hok =>
        cases hp
        have hsame := (h.joined.calm.owned.sane k a ha).holds c (by rw [hp']; rfl)
        have htx : a.way = .tx := hsame.2.2.symm.trans hway
        have hcopies : s.copies (.run k ch) n = s.copyFromUser k a.loop.usrBuf a.loop.size := by
          simp only [System.copies,ha,hp',htx,hok htx]
          rw [if_pos ⟨trivial,hl⟩,if_pos trivial]
        have hin := run_inside (c := Copy.mk a.loop.usrBuf 0 a.loop.size) hi (s.user k) (s.tmp k)
        rw [Nat.zero_add] at hin
        rw [htmp,huser,hcopies]
        exact (congrFun (Function.update_self ..) i).trans hin
      | @transfer c' x₀ x' d hp' hx =>
        cases hp
        obtain ⟨_,hlen⟩ := Driver.takes_same (Driver.xfer_step_takes hx)
        obtain ⟨hu,htm⟩ := (copies_copied s (.run k ch) n).transfer ⟨a,ha,hp'⟩
        rw [htmp,huser,hu,htm hway]
        exact h.staged k a c x₀ ha hp' hway i (by rw [← hlen]; exact hi)
      | waits _ hq =>
        dsimp only at hp
        rw [hp] at hq
        rcases hq with hq | ⟨_,hq⟩ | hq
        · exact hq.elim
        · contradiction
        · contradiction
      | _ => contradiction
    · obtain ⟨_,_,hloop,hphase | ⟨_,_,hsleep⟩⟩ := Driver.rests_same hr
      · rw [hphase] at hp
        have hown : ∀ ch m, Label.driver l n ≠ .driver (.run k ch) m := by
          rintro ch m ⟨⟩
          exact hne ch rfl
        rw [step_user he hown,hloop]
        rcases step_tmp h.joined h.lent he hown with heq | ⟨e,y,_,_,⟨a',ha',hp'⟩,hrx,_⟩
        · rw [heq]
          exact h.staged k a c x ha hp hway i hi
        · cases ha.symm.trans ha'
          cases hp.symm.trans hp'
          rw [hway] at hrx
          contradiction
      · rw [hp] at hsleep
        contradiction

theorem step_shown {l : Label} (h : Loaded w s) (hg : CalmStep s l) (he : step w s l = some t)
    {k : ℕ} {b : Driver.Call} {c : ChanId} {x : Xfer} (hb : t.driver.calls k = some b)
    (hp : b.phase = .transfer c x) (hway : c.1 = .tx) (hl : (t.driver.chans c).Live) {i : ℕ}
    (hi : i < x.len) : t.machine.bus.far ((t.driver.chans c).dmaBuf + i) =
      t.user k (b.loop.usrBuf + i) := by
  have hno : c.1 = .rx → l ≠ .element c := by
    intro hrx
    rw [hway] at hrx
    contradiction
  -- a mapping that was shown stays shown
  have hold : ∀ {a : Driver.Call} {y : Xfer}, s.driver.calls k = some a →
      a.phase = .transfer c y → (s.driver.chans c).Live → i < y.len →
      (s.driver.chans c).Stays (t.driver.chans c) → b.loop = a.loop →
      t.machine.bus.far ((t.driver.chans c).dmaBuf + i) = t.user k (b.loop.usrBuf + i) := by
    intro a y ha hq hlive hiy hstay hloop
    have hfits := h.joined.fits ⟨a,ha,hq⟩ hlive
    have hmem : (s.driver.chans c).dmaBuf + i ∈ (s.driver.chans c).area := by
      rw [DmaChan.area,hfits.len]
      exact ⟨Nat.le_add_right _ _,Nat.add_lt_add_left hiy _⟩
    rw [transfer_user he ⟨a,ha,hq⟩,hstay.1,hloop,area_kept h.joined hg he hlive hno hmem]
    exact h.shown k a c y ha hq hway hlive i hiy
  cases l with
  | element e =>
    obtain ⟨m,_,rfl⟩ := step_element he
    exact hold hb hp hl hi ⟨rfl,rfl⟩ rfl
  | driver l n =>
    obtain ⟨hd,hm,_⟩ := step_driver he
    have howned := Driver.step_owned h.joined.calm.owned hd
    -- the call that had the channel still has it
    have hgoes : ∀ {j : ℕ} {y : Xfer}, s.driver.At j c y → (∀ ret, y.stage ≠ .returned ret) →
        ∃ a, s.driver.calls k = some a ∧ a.phase = .transfer c y ∧ b.loop = a.loop ∧
          i < y.len ∧ j = k := by
      rintro j y ⟨a,ha,hq⟩ hret
      obtain ⟨b',x',hb',hq',hloop,_,hlen⟩ := Driver.step_chunk hd ha hq hret
      obtain rfl := at_unique howned ⟨b',hb',hq'⟩ ⟨b,hb,hp⟩
      cases hb.symm.trans hb'
      cases hp.symm.trans hq'
      exact ⟨a,ha,hq,hloop,by rw [← hlen]; exact hi,rfl⟩
    rcases Driver.step_area h.joined.calm hd hl with ⟨hlive,hstay⟩ |
      ⟨j,ch,y,rfl,hy,hst,hok,hbuf,_⟩
    · obtain ⟨j,y,hy,hret,_,_⟩ := h.joined.calm.owner hlive
      obtain ⟨a,ha,hq,hloop,hiy,_⟩ := hgoes hy hret
      exact hold ha hq hlive hiy hstay hloop
    · obtain ⟨a,ha,hq,hloop,hiy,rfl⟩ := hgoes hy (by simp [hst])
      obtain ⟨_,_,hbus⟩ := follow_joined h.joined hg hd hm
      have hcopies : s.copies (.run j ch) n = s.mapSingle c j ch.addr y.len := by
        simp only [System.copies,ha,hq,hst,hok,if_true]
      rw [transfer_user he hy,hbuf,hloop,hbus.far,hcopies,mapSingle_tx hway s j ch.addr hiy]
      exact h.staged j a c y ha hq hway i hiy

theorem step_loaded {l : Label} (h : Loaded w s) (hg : CalmStep s l) (he : step w s l = some t) :
    Loaded w t where
  joined := step_joined h.joined hg he
  lent := step_lent h.joined h.lent hg he
  staged _ _ _ _ hb hp hway _ hi := step_staged h he hb hp hway hi
  shown _ _ _ _ hb hp hway hl _ hi := step_shown h hg he hb hp hway hl hi

theorem loaded_init (w : Installation) (regs : Registers.RegFile) (bus : Bus)
    (tmp user : ℕ → LittleEndian.Memory) : Loaded w (System.init w regs bus tmp user) where
  joined := joined_init w regs bus tmp user
  lent := by
    rintro k c x ⟨a,ha,_⟩
    contradiction
  staged _ _ _ _ ha := by contradiction
  shown _ _ _ _ ha := by contradiction

theorem runs_loaded {regs : Registers.RegFile} {bus : Bus} {tmp user : ℕ → LittleEndian.Memory}
    {ls : List Label} (hr : Runs (step w) CalmStep (System.init w regs bus tmp user) ls s) :
    Loaded w s :=
  hr.invariant (fun _ _ _ h hg he => step_loaded h hg he) (loaded_init w regs bus tmp user)

/-! ## Nothing else is written -/

theorem Joined.chunk (h : Joined w s) {k : ℕ} {c : ChanId} {x : Xfer} (hx : s.driver.At k c x) :
    ∃ a, s.driver.calls k = some a ∧ a.phase = .transfer c x ∧ x.devAddr = a.loop.pos ∧
      x.len = a.loop.size ∧ c.1 = a.way ∧ a.loop.usrBuf + a.loop.size ≤ a.sz := by
  obtain ⟨a,pos,ha,hp,hasks,_⟩ := h.calm.chunk hx
  obtain ⟨hdev,hlen,_⟩ := hasks.chunk c x hp
  have hway := ((h.calm.owned.sane k a ha).holds c (by rw [hp]; rfl)).2.2
  obtain ⟨_,hleft,_⟩ := hasks.loop
  obtain ⟨_,hsize⟩ := Driver.loop_size_le a.loop
  exact ⟨a,ha,hp,hdev,hlen,hway,by omega⟩

theorem copied_out {l : Driver.Label} (h : Copied s l u) {k y : ℕ} (hne : u.user k y ≠ s.user k y) :
    ∃ ch a c i, l = .run k ch ∧ s.driver.calls k = some a ∧ a.phase = .copy c ∧ i < a.loop.size ∧
      y = a.loop.usrBuf + i ∧ u.user k y = s.tmp k i := by
  cases h with
  | @toUser j m ch a c ha hp hm =>
    by_cases hk : k = j
    · subst hk
      have hself : (s.copyToUser k a.loop.usrBuf m).user k =
          (Copy.mk 0 a.loop.usrBuf m).run (s.tmp k) (s.user k) := Function.update_self ..
      rw [hself] at hne ⊢
      rcases run_cases (Copy.mk 0 a.loop.usrBuf m) (s.tmp k) (s.user k) y with heq | ⟨i,hi,hy,heq⟩
      · exact absurd heq hne
      · rw [Nat.zero_add] at heq
        exact ⟨ch,a,c,i,rfl,ha,hp,Nat.lt_of_lt_of_le hi hm,hy,heq⟩
    · refine absurd ?_ hne
      exact congrFun (Function.update_of_ne hk ..) y
  | unmap _ _ => rw [(unmapSingle_machine ..).2.1] at hne; exact absurd rfl hne
  | callback _ => rw [(unmapSingle_machine ..).2.1] at hne; exact absurd rfl hne
  | _ => exact absurd rfl hne

/-- In a calm run a byte of the device outside of the reserved area changes only to that of a
write that waits for its chunk, a byte of the host as the device sees it only to that of a read
that waits, or of a write that maps its chunk, and a byte of a user only with the copy of a chunk
that was read. -/
theorem writes_confined {regs : Registers.RegFile} {bus : Bus}
    {tmp user : ℕ → LittleEndian.Memory} {ls : List Label} {l : Label}
    (hr : Runs (step w) CalmStep (System.init w regs bus tmp user) ls s) (hg : CalmStep s l)
    (he : step w s l = some t) :
    (∀ y, y ∉ Set.Ico w.dev.ram.start w.dev.ram.stop →
      t.machine.bus.near y ≠ s.machine.bus.near y → ∃ k a c x i, l = .element c ∧
        s.driver.calls k = some a ∧ a.phase = .transfer c x ∧ x.stage = .wait ∧ a.way = .tx ∧
        i < a.loop.size ∧ a.loop.usrBuf + i < a.sz ∧ y = a.loop.pos + i ∧
        t.machine.bus.near y = s.user k (a.loop.usrBuf + i)) ∧
    (∀ y, t.machine.bus.far y ≠ s.machine.bus.far y → ∃ k a c x i,
      s.driver.calls k = some a ∧ a.phase = .transfer c x ∧ i < a.loop.size ∧
      ((l = .element c ∧ x.stage = .wait ∧ a.way = .rx ∧ y = (s.driver.chans c).dmaBuf + i ∧
        t.machine.bus.far y = s.machine.bus.near (a.loop.pos + i)) ∨
      ∃ ch n, l = .driver (.run k ch) n ∧ x.stage = .map ∧ a.way = .tx ∧ y = ch.addr + i ∧
        t.machine.bus.far y = s.user k (a.loop.usrBuf + i))) ∧
    ∀ k y, t.user k y ≠ s.user k y → ∃ ch n a c i, l = .driver (.run k ch) n ∧
      s.driver.calls k = some a ∧ a.phase = .copy c ∧ a.way = .rx ∧ i < a.loop.size ∧
      y = a.loop.usrBuf + i ∧ t.user k y = s.tmp k i := by
  have h := runs_loaded hr
  refine ⟨fun y hy hne => ?_,fun y hne => ?_,fun k y hne => ?_⟩
  · have hlists : y ∉ w.setup.lists (Set.range hw) := fun hmem => hy (w.reserved hmem)
    rcases step_near h.joined hg he hlists with heq | ⟨k,c,x,i,rfl,hway,hx,hst,hlive,hi,hye,heq⟩
    · exact absurd heq hne
    · obtain ⟨a,ha,hp,hdev,hlen,hsame,hend⟩ := h.joined.chunk hx
      rw [hdev] at hye
      have hsize : i < a.loop.size := by rw [← hlen]; exact hi
      refine ⟨k,a,c,x,i,rfl,ha,hp,hst,hsame ▸ hway,hsize,by omega,hye,?_⟩
      rw [heq]
      exact h.shown k a c x ha hp hway hlive i hi
  · rcases step_far h.joined hg he y with heq | ⟨k,c,x,i,rfl,hway,hx,hst,_,hi,_,hye,heq⟩ |
      ⟨k,ch,n,c,x,i,rfl,hx,hst,_,hway,hi,hye,heq⟩
    · exact absurd heq hne
    · obtain ⟨a,ha,hp,hdev,hlen,hsame,_⟩ := h.joined.chunk hx
      rw [hdev] at heq
      rw [hlen] at hi
      exact ⟨k,a,c,x,i,ha,hp,hi,Or.inl ⟨rfl,hst,hsame ▸ hway,hye,heq⟩⟩
    · obtain ⟨a,ha,hp,_,hlen,hsame,_⟩ := h.joined.chunk hx
      have hstaged := h.staged k a c x ha hp hway i hi
      rw [hlen] at hi
      exact ⟨k,a,c,x,i,ha,hp,hi,Or.inr ⟨ch,n,rfl,hst,hsame ▸ hway,hye,heq.trans hstaged⟩⟩
  · cases l with
    | element e =>
      obtain ⟨m,_,rfl⟩ := step_element he
      exact absurd rfl hne
    | driver l n =>
      obtain ⟨_,_,_,huser,_⟩ := step_driver he
      rw [huser] at hne ⊢
      obtain ⟨ch,a,c,i,rfl,ha,hp,hi,hy,heq⟩ := copied_out (copies_copied s l n) hne
      obtain ⟨pos,hasks⟩ := h.joined.calm.asks k a ha
      exact ⟨ch,n,a,c,i,rfl,ha,hp,(hasks.copies c hp).1,hi,hy,heq⟩

/-! ## A run -/

/-- `[lo, hi)` is apart from what is mapped for the channel. -/
def System.apart (s : System) (lo hi : ℕ) (e : ChanId) : Bool :=
  decide ((s.driver.chans e).mapped ≤ (s.driver.chans e).unmaps.length) ||
    (decide (hi ≤ (s.driver.chans e).dmaBuf) ||
      decide ((s.driver.chans e).dmaBuf + (s.driver.chans e).dmaLen ≤ lo))

/-- Nothing fails, and a buffer is mapped apart from the others. -/
def System.quiet (s : System) : Label → Bool
  | .driver (.enter _ _ pos sz _) _ => decide (pos + sz < 18446744073709551616)
  | .driver (.run k ch) _ => ch.ok &&
    match (s.driver.calls k).map Driver.Call.phase with
    | some (.transfer _ x) => decide (x.stage ≠ .map) ||
        decide (ch.addr + x.len ≤ 18446744073709551616) && (List.finRange 2).all fun i =>
          s.apart ch.addr (ch.addr + x.len) (.rx,i) && s.apart ch.addr (ch.addr + x.len) (.tx,i)
    | _ => true
  | .driver (.finish _ irq) _ => decide (irq = .done)
  | _ => true

theorem disjoint_of_apart {lo hi : ℕ} {e : ChanId} (h : s.apart lo hi e = true)
    (hlive : (s.driver.chans e).Live) : Disjoint (Set.Ico lo hi) (s.driver.chans e).area := by
  rw [Set.disjoint_left]
  rintro y ⟨hlo,hhi⟩ ⟨hfrom,hto⟩
  simp only [System.apart,Bool.or_eq_true,decide_eq_true_eq] at h
  rcases h with h | h | h
  · exact absurd hlive (Nat.not_lt.mpr h)
  · exact absurd hhi (Nat.not_lt.mpr (h.trans hfrom))
  · exact absurd hto (Nat.not_lt.mpr (h.trans hlo))

theorem calm_of_quiet {l : Label} (h : s.quiet l = true) : CalmStep s l := by
  cases l with
  | element c => trivial
  | driver l n =>
    cases l with
    | enter k way pos sz ok => exact ⟨trivial,of_decide_eq_true h⟩
    | finish c irq => exact ⟨trivial,of_decide_eq_true h⟩
    | interrupt c => exact ⟨trivial,trivial⟩
    | tasklet c => exact ⟨trivial,trivial⟩
    | run k ch =>
      obtain ⟨hok,hmap⟩ := Bool.and_eq_true_iff.mp h
      refine ⟨fun _ _ _ _ => hok,fun c x hx hst _ => ?_⟩
      obtain ⟨a,ha,hp⟩ := hx
      simp only [ha,Option.map_some,hp,hst,ne_eq,not_true_eq_false,decide_false,Bool.false_or,
        Bool.and_eq_true,decide_eq_true_eq] at hmap
      obtain ⟨hend,hapart⟩ := hmap
      refine ⟨hend,fun e _ hlive => disjoint_of_apart ?_ hlive⟩
      obtain ⟨way,i⟩ := e
      obtain ⟨hrx,htx⟩ := Bool.and_eq_true_iff.mp
        (List.all_eq_true.mp hapart i (List.mem_finRange i))
      cases way with
      | rx => exact hrx
      | tx => exact htx

def board : Installation := buildInstallation .plain (.edma .unroll) true 8192

def lettered : System := System.init board (Registers.statusAt 0 0#32)
  ⟨fun _ => 0#8,fun _ => 0#8⟩ (fun _ _ => 0#8) (fun _ i => BitVec.ofNat 8 (i+1))

/-- A write of four bytes at 100, up to its wait. -/
def oneWrite : List Label :=
  .driver (.enter 0 .tx 100 4 true) 0 :: List.replicate 8 (.driver (.run 0 Driver.yes) 0)

theorem oneWrite_waits : ((check (step board) (fun s l => s.quiet l = true) lettered oneWrite).bind
    fun s => step board s (.element (.tx,0))).isSome = true := by decide +kernel

theorem oneWrite_confined : ∃ s t, Runs (step board) CalmStep lettered oneWrite s ∧
    step board s (.element (.tx,0)) = some t ∧ s.machine.bus.near 101 = 0#8 ∧
    t.machine.bus.near 101 = 2#8 ∧ ∃ k a i, s.driver.calls k = some a ∧ a.way = .tx ∧
      101 = a.loop.pos + i ∧ t.machine.bus.near 101 = s.user k (a.loop.usrBuf + i) := by
  obtain ⟨s,hs,ht⟩ := Option.bind_eq_some_iff.mp (Option.some_get oneWrite_waits).symm
  have hr := (runs_of_check hs).mono fun _ _ => calm_of_quiet
  have hold : s.machine.bus.near 101 = 0#8 := by
    have hmap : (check (step board) (fun s l => s.quiet l = true) lettered oneWrite).map
        (fun s => s.machine.bus.near 101) = some (0#8) := by decide +kernel
    rw [hs] at hmap
    exact Option.some.inj hmap
  have hnew : (((check (step board) (fun s l => s.quiet l = true) lettered oneWrite).bind
      fun s => step board s (.element (.tx,0))).get oneWrite_waits).machine.bus.near 101 = 2#8 := by
    decide +kernel
  obtain ⟨k,a,c,x,i,_,ha,_,_,hway,_,_,hy,heq⟩ := (writes_confined hr (l := .element (.tx,0))
    trivial ht).1 101 (fun hmem => absurd hmem.1 (by decide)) (by rw [hold,hnew]; decide)
  exact ⟨s,_,hr,ht,hold,hnew,k,a,i,ha,hway,hy,heq⟩

end AkidaEdma.DataPath
