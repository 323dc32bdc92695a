import AkidaEdma.Engine.Execution
import AkidaEdma.Engine.Gather

/-! # The arrival of the data

What a request finds done when its descriptor is completed, while the other channels go on with
requests of their own.
-/
namespace AkidaEdma.Execution
open Transition BlockCopy AkidaEdma.DwEdma AkidaEdma.Registers

/-- The bytes that the bursts of a channel touch on the engine's side and on the far one. -/
def nearBytes (dir : Dir) (bs : List Burst) : Set ℕ := {x | ∃ b ∈ bs, x ∈ b.near dir}

def farBytes (dir : Dir) (bs : List Burst) : Set ℕ :=
  {x | ∃ b ∈ bs, x ∈ if dir = .write then b.copy.target else b.copy.source}

/-- A burst of another channel writes none of the bytes of `bs`. -/
def Spares (dir : Dir) (bs : List Burst) (m : Ch × Burst) : Prop :=
  Disjoint m.2.copy.target (if m.1.1 = .write then farBytes dir bs else nearBytes dir bs)

/-- The memories are the same on the bytes `N` of the engine's side and `F` of the far one. -/
structure Same (N F : Set ℕ) (m m' : Bus) : Prop where
  near : Set.EqOn m'.near m.near N
  far : Set.EqOn m'.far m.far F

variable {N F : Set ℕ} {m m' : Bus}

/-- A burst does the same to the bytes that agree, if its source is among them. -/
theorem Same.move (h : Same N F m m') {dir : Dir} {b : Burst}
    (hsource : b.copy.source ⊆ if dir = .write then N else F) :
    Same N F (m.move dir b) (m'.move dir b) := by
  cases dir with
  | write =>
    have hread : ∀ c ∈ [b.copy], Set.EqOn m'.near m.near c.source := by
      intro c hc
      rw [List.mem_singleton.mp hc]
      exact h.near.mono hsource
    exact ⟨h.near,copies_congr hread h.far⟩
  | read =>
    have hread : ∀ c ∈ [b.copy], Set.EqOn m'.far m.far c.source := by
      intro c hc
      rw [List.mem_singleton.mp hc]
      exact h.far.mono hsource
    exact ⟨copies_congr hread h.near,h.far⟩

/-- A burst that writes none of these bytes. -/
theorem Same.spared (h : Same N F m m') {dir : Dir} {b : Burst}
    (htarget : Disjoint b.copy.target (if dir = .write then F else N)) :
    Same N F m (m'.move dir b) := by
  have hout : ∀ {A : Set ℕ} {x}, Disjoint b.copy.target A → x ∈ A → x ∉ b.copy.target :=
    fun hd hx hin => Set.disjoint_left.mp hd hin hx
  cases dir with
  | write =>
    refine ⟨h.near,fun x hx => ?_⟩
    exact (Footprint.overwrite_outside (fun i => m'.near (b.copy.src + i)) m'.far
      (hout htarget hx)).trans (h.far hx)
  | read =>
    refine ⟨fun x hx => ?_,h.far⟩
    exact (Footprint.overwrite_outside (fun i => m'.far (b.copy.src + i)) m'.near
      (hout htarget hx)).trans (h.near hx)

def burstsOf (c : Ch) (u : List (Ch × Burst)) : List Burst :=
  u.filterMap fun x => if x.1 = c then some x.2 else none

theorem burstsOf_cons (c : Ch) (x : Ch × Burst) (u : List (Ch × Burst)) :
    burstsOf c (x :: u) = if x.1 = c then x.2 :: burstsOf c u else burstsOf c u := by
  unfold burstsOf
  split
  · exact List.filterMap_cons_some (by rw [if_pos (by assumption)])
  · exact List.filterMap_cons_none (by rw [if_neg (by assumption)])

/-- The bursts of a channel, among those of the others that spare its bytes. -/
theorem Same.among (c : Ch) (bs : List Burst) (u : List (Ch × Burst))
    (hmine : ∀ b, (c,b) ∈ u → b ∈ bs)
    (hothers : ∀ x ∈ u, x.1 ≠ c → Spares c.1 bs x) :
    ∀ {m m' : Bus}, Same (nearBytes c.1 bs) (farBytes c.1 bs) m m' →
      Same (nearBytes c.1 bs) (farBytes c.1 bs)
        (m.moves ((burstsOf c u).map (Prod.mk c.1)))
        (m'.moves (u.map fun x => (x.1.1,x.2))) := by
  induction u with
  | nil => exact fun h => h
  | cons x u ih =>
    intro m m' h
    have hmine' : ∀ b, (c,b) ∈ u → b ∈ bs := fun b hb => hmine b (List.mem_cons_of_mem x hb)
    have hothers' : ∀ y ∈ u, y.1 ≠ c → Spares c.1 bs y :=
      fun y hy => hothers y (List.mem_cons_of_mem x hy)
    obtain ⟨c',b⟩ := x
    by_cases hc : c' = c
    · subst hc
      have hb := hmine b List.mem_cons_self
      have hsource : b.copy.source ⊆
          if c'.1 = .write then nearBytes c'.1 bs else farBytes c'.1 bs := by
        intro y hy
        split
        · rename_i hw
          exact ⟨b,hb,by rw [Burst.near,if_pos hw]; exact hy⟩
        · rename_i hw
          exact ⟨b,hb,by rw [if_neg hw]; exact hy⟩
      rw [burstsOf_cons,if_pos rfl]
      exact ih hmine' hothers' (h.move hsource)
    · rw [burstsOf_cons,if_neg hc]
      exact ih hmine' hothers' (h.spared (hothers (c',b) List.mem_cons_self hc))

/-! ## One request of a channel -/

variable {su : Setup} {S : Set Ch} {c : Ch} {s t : Machine}

/-- Every issued descriptor is completed. -/
def Quiet (e : State) : Prop := ∀ d ∈ issues e.log, d.vd ∈ completions e.log

theorem Lane.quiet_moved (h : Lane su S c s) (hq : Quiet (s.chan c)) :
    s.movedBy c = bursts ((issues (s.chan c).log).flatMap Desc.chunk) := by
  have hle := h.moved_prefix
  rcases List.eq_nil_or_concat (issues (s.chan c).log) with hnil | ⟨pre,d,hcons⟩
  · rw [hnil] at hle ⊢
    exact List.eq_nil_of_prefix_nil hle
  · rw [List.concat_eq_append] at hcons
    have hge := h.completed_prefix hcons (hq d (by rw [hcons]; simp))
    rw [← hcons] at hge
    exact hle.eq_of_length_le hge.length_le

theorem step_moved_prefix {m : Move} (he : s.step su m = some t) : s.moved <+: t.moved := by
  cases m with
  | op c op =>
    simp only [Machine.step,Machine.operate] at he
    split at he
    · contradiction
    · obtain ⟨e,_,rfl⟩ := Option.map_eq_some_iff.mp he
      cases opStart (s.chan c) op <;> exact List.prefix_rfl
  | element c =>
    obtain ⟨_,_,_,b,_,rfl⟩ := element_some he
    exact List.prefix_append _ _
  | halt c =>
    simp only [Machine.step,Machine.halt] at he
    split at he
    · obtain ⟨e,_,rfl⟩ := Option.map_eq_some_iff.mp he
      exact List.prefix_rfl
    · contradiction

theorem runs_moved_prefix {ms : List Move}
    (hr : Runs (Machine.step su) (Allowed su S) s ms t) : s.moved <+: t.moved :=
  hr.related (R := fun s t => s.moved <+: t.moved) (fun _ => List.prefix_rfl)
    (fun _ _ _ => List.IsPrefix.trans) (fun _ _ _ _ he => step_moved_prefix he)

theorem Running.run {bus : Bus} (hl : su.Laid S) (h : Running su S bus s) {ms : List Move}
    (hr : Runs (Machine.step su) (Allowed su S) s ms t) : Running su S bus t :=
  hr.invariant (fun _ _ _ h hg he => step_lanes hl h hg he) h

/-- Of a quiet channel, with one request issued and completed since, exactly the bursts of this
request were moved. -/
theorem request_moved {bus : Bus} (hs : Running su S bus s) (ht : Running su S bus t) (hc : c ∈ S)
    (hquiet : Quiet (s.chan c)) {d : Desc}
    (hissued : issues (t.chan c).log = issues (s.chan c).log ++ [d])
    (hdone : d.vd ∈ completions (t.chan c).log) (hmoved : s.moved <+: t.moved) :
    burstsOf c (t.moved.drop s.moved.length) = bursts d.chunk := by
  have hbefore := (hs.lane c hc).quiet_moved hquiet
  have hge := Lane.completed_prefix (ht.lane c hc) hissued hdone
  have hle := Lane.moved_prefix (ht.lane c hc)
  rw [hissued] at hle
  have hafter := hle.eq_of_length_le hge.length_le
  rw [List.flatMap_append,bursts_append,← hbefore,List.flatMap_singleton] at hafter
  obtain ⟨new,hnew⟩ := hmoved
  rw [← hnew,List.drop_left]
  have happ : t.movedBy c = s.movedBy c ++ burstsOf c new := by
    rw [Machine.movedBy,← hnew,List.filterMap_append]
    rfl
  exact List.append_cancel_left (happ.symm.trans hafter)

/-- The bursts of an issued descriptor stay away from the lists. -/
theorem Lane.issued_clear (h : Lane su S c s) {d : Desc} (hd : d ∈ issues (s.chan c).log) :
    Disjoint (nearBytes c.1 (bursts d.chunk)) (su.lists S) := by
  refine Set.disjoint_left.mpr ?_
  rintro x ⟨b,hb,hx⟩ hin
  obtain ⟨bs,hbs,hmem⟩ := List.mem_flatten.mp hb
  obtain ⟨k,hk,rfl⟩ := List.mem_map.mp hbs
  have hprep := (h.ordered.1.origin d (List.mem_append_right _ hd)).1
  have hfit := (h.prepared d hprep).fit k hk
  exact Set.disjoint_left.mp (hfit.clear b hmem).2 hx hin

/-- On the bytes of the request, the memories are what its bursts made of them. -/
theorem request_same {bus : Bus} (hl : su.Laid S) (hs : Running su S bus s) {ms : List Move}
    (hr : Runs (Machine.step su) (Allowed su S) s ms t) (hc : c ∈ S) (hquiet : Quiet (s.chan c))
    {d : Desc} (hissued : issues (t.chan c).log = issues (s.chan c).log ++ [d])
    (hdone : d.vd ∈ completions (t.chan c).log)
    (hspared : ∀ x ∈ t.moved.drop s.moved.length, x.1 ≠ c → Spares c.1 (bursts d.chunk) x) :
    Same (nearBytes c.1 (bursts d.chunk)) (farBytes c.1 (bursts d.chunk))
      (s.bus.moves ((bursts d.chunk).map (Prod.mk c.1))) t.bus := by
  have ht := hs.run hl hr
  have hmoved := runs_moved_prefix hr
  have hmine := request_moved hs ht hc hquiet hissued hdone hmoved
  have hclear := (ht.lane c hc).issued_clear (d := d) (by rw [hissued]; simp)
  have hnear : ∀ x ∈ nearBytes c.1 (bursts d.chunk), x ∈ (su.lists S)ᶜ :=
    fun x hx => Set.disjoint_left.mp hclear hx
  -- the memories that the log describes, in place of those with the lists
  have hstart : Same (nearBytes c.1 (bursts d.chunk)) (farBytes c.1 (bursts d.chunk)) s.bus
      (bus.moves s.transfers) :=
    ⟨fun x hx => (hs.bus.near (hnear x hx)).symm,fun x _ => (congrFun hs.bus.far x).symm⟩
  have hall := Same.among c (bursts d.chunk) (t.moved.drop s.moved.length) ?_ hspared hstart
  · rw [hmine] at hall
    have htransfers : t.transfers = s.transfers ++
        (t.moved.drop s.moved.length).map fun x => (x.1.1,x.2) := by
      obtain ⟨new,hnew⟩ := hmoved
      rw [Machine.transfers,Machine.transfers,← hnew,List.drop_left,List.map_append]
    rw [← moves_append,← htransfers] at hall
    refine ⟨fun x hx => ?_,fun x hx => ?_⟩
    · exact (ht.bus.near (hnear x hx)).trans (hall.near hx)
    · exact (congrFun ht.bus.far x).trans (hall.far hx)
  · intro b hb
    rw [← hmine]
    exact List.mem_filterMap.mpr ⟨(c,b),hb,if_pos rfl⟩

theorem Same.target {dir : Dir} {bs : List Burst}
    (h : Same (nearBytes dir bs) (farBytes dir bs) m m') {b : Burst} (hb : b ∈ bs) {x : ℕ}
    (hx : x ∈ b.copy.target) : m'.target dir x = m.target dir x := by
  cases dir with
  | write => exact h.far ⟨b,hb,hx⟩
  | read => exact h.near ⟨b,hb,hx⟩

/-- The data of a scatter-gather request has arrived when its descriptor is completed: in every
run without termination and aborts that finds the channel quiet, with requests whose chunks agree
with the cycle state, whatever the other channels do meanwhile, as long as their bursts write none
of the bytes of the request. -/
theorem request_arrived (hl : su.Laid S) {regs : RegFile} {bus : Bus} {ms ns : List Move}
    (hs : Runs (Machine.step su) (Allowed su S) (Machine.init su regs bus) ms s)
    (hr : Runs (Machine.step su) (Allowed su S) s ns t) (hc : c ∈ S) (hquiet : Quiet (s.chan c))
    {chan : Chan} {direction : XferDirection} {sgl : List Sg} {vd : ℕ} {d : Desc}
    (hll : 1 ≤ chan.llMax) (hne : 1 ≤ sgl.length) (htyped : Typed su.chip chan direction sgl)
    (hwrap : deviceBase su.chip chan direction + totalLength sgl < 18446744073709551616)
    (happart : direction = .devToMem → Apart sgl)
    (hd : deviceTransfer su.chip chan vd ⟨direction,.scatterGather sgl sgl.length⟩ = some d)
    (hissued : issues (t.chan c).log = issues (s.chan c).log ++ [d])
    (hdone : d.vd ∈ completions (t.chan c).log)
    (hspared : ∀ x ∈ t.moved.drop s.moved.length, x.1 ≠ c → Spares c.1 (bursts d.chunk) x) :
    Arrived direction (deviceBase su.chip chan direction) sgl (s.bus.source c.1)
      (t.bus.target c.1) := by
  have hsame := request_same hl ((running_init regs bus).run hl hs) hr hc hquiet hissued hdone
    hspared
  have hcopies := (deviceTransfer_translated hll hne htyped hd).copies hwrap
  obtain ⟨htarget,_⟩ := moves_channel c.1 (bursts d.chunk) s.bus
  rw [hcopies] at htarget
  have hdir : direction = .devToMem ∨ direction = .memToDev := by
    have hok : directionOk su.chip chan.dir direction = true := by
      by_contra hno
      simp [deviceTransfer,hno] at hd
    revert hok
    unfold directionOk
    cases su.chip.isLocal <;> cases chan.dir <;> cases direction <;> decide
  obtain ⟨⟨hgathered,hscattered⟩,_⟩ := copies_carried hdir happart
    (deviceBase su.chip chan direction) (s.bus.source c.1) (s.bus.target c.1)
  -- a byte of an entry is one of a burst
  have hbyte : ∀ (k : ℕ) (e : Sg), sgl[k]? = some e → ∀ x, x ∈ (e.copy direction
      (deviceBase su.chip chan direction + totalLength (sgl.take k))).target →
      t.bus.target c.1 x = copies (entryCopies direction (deviceBase su.chip chan direction) sgl)
        (s.bus.source c.1) (s.bus.target c.1) x := by
    intro k e hk x hx
    have hmem := @mem_entryCopies direction (deviceBase su.chip chan direction) sgl k e hk
    rw [← hcopies] at hmem
    obtain ⟨b,hb,hcopy⟩ := List.mem_map.mp hmem
    rw [← htarget]
    exact hsame.target hb (by rw [hcopy]; exact hx)
  refine ⟨fun hdev k e hk i hi => ?_,fun hmem k e hk i hi => ?_⟩
  · rw [← hgathered hdev k e hk i hi]
    refine hbyte k e hk _ ?_
    rw [Sg.copy,if_pos hdev]
    exact ⟨Nat.le_add_right _ _,Nat.add_lt_add_left hi _⟩
  · rw [← hscattered hmem k e hk i hi]
    refine hbyte k e hk _ ?_
    rw [Sg.copy,if_neg (by rw [hmem]; decide)]
    exact ⟨Nat.le_add_right _ _,Nat.add_lt_add_left hi _⟩

theorem inTurns_moved : ((exec (Machine.step oneElement) (Machine.init oneElement (statusAt 0 0#32)
      counted) (inTurns (.write,0) (.read,0))).get inTurns_runs).moved =
    [((.write,0),⟨100,20480,4⟩),((.read,0),⟨28672,200,4⟩),((.write,0),⟨104,24576,4⟩),
      ((.read,0),⟨32768,204,4⟩)] := by
  decide +kernel

/-- A burst in the other direction writes on the side where these bursts read. -/
theorem spares_other {dir : Dir} {bs : List Burst} {c : Ch} {b : Burst} (hc : c.1 ≠ dir)
    (h : ∀ e ∈ bs, e.sar + e.sz ≤ b.dar ∨ b.dar + b.sz ≤ e.sar) : Spares dir bs (c,b) := by
  have hapart : Disjoint b.copy.target {x | ∃ e ∈ bs, x ∈ e.copy.source} := by
    refine Set.disjoint_left.mpr ?_
    rintro x ⟨hlo,hhi⟩ ⟨e,he,hlo',hhi'⟩
    have hout := h e he
    simp only [Burst.copy] at hlo hhi hlo' hhi'
    omega
  obtain ⟨dir',id⟩ := c
  cases dir with
  | write =>
    cases dir' with
    | write => exact absurd rfl hc
    | read => exact hapart
  | read =>
    cases dir' with
    | write => exact hapart
    | read => exact absurd rfl hc

/-- The two channels work in different directions, and apart. -/
theorem inTurns_spare {x : Ch × Burst} (hx : x ∈ ((exec (Machine.step oneElement)
      (Machine.init oneElement (statusAt 0 0#32) counted) (inTurns (.write,0) (.read,0))).get
        inTurns_runs).moved) :
    (x.1 = (.write,0) ∧ Spares .read (bursts toDeviceDesc.chunk) x) ∨
      (x.1 = (.read,0) ∧ Spares .write (bursts fromDeviceDesc.chunk) x) := by
  rw [inTurns_moved] at hx
  simp only [List.mem_cons,List.not_mem_nil,or_false] at hx
  rcases hx with rfl | rfl | rfl | rfl
  · exact Or.inl ⟨rfl,spares_other (by decide) (by decide)⟩
  · exact Or.inr ⟨rfl,spares_other (by decide) (by decide)⟩
  · exact Or.inl ⟨rfl,spares_other (by decide) (by decide)⟩
  · exact Or.inr ⟨rfl,spares_other (by decide) (by decide)⟩

/-- Two requests of two chunks each, on two channels that take turns. -/
theorem inTurns_arrived : ∃ t,
    Runs (Machine.step oneElement) (Allowed oneElement (bothWays 0))
      (Machine.init oneElement (statusAt 0 0#32) counted) (inTurns (.write,0) (.read,0)) t ∧
    Arrived .devToMem 100 [⟨20480,4⟩,⟨24576,4⟩] counted.near t.bus.far ∧
    Arrived .memToDev 200 [⟨28672,4⟩,⟨32768,4⟩] counted.far t.bus.near := by
  have hr := runs_of_exec (inTurns_allowed counted (statusAt 0 0#32))
    (Option.some_get inTurns_runs).symm
  refine ⟨_,hr,?_,?_⟩
  · have hd : deviceTransfer oneElement.chip ⟨0,.write,1,.none,.idle,true,⟨100,0⟩,[],[],[]⟩ 0
        fromDevice = some fromDeviceDesc := by decide +kernel
    refine request_arrived oneElement_laid (.refl _) hr (Or.inl rfl)
      (fun d hd => absurd hd List.not_mem_nil) (by decide) (by decide)
      ⟨by decide,by decide,by decide⟩ (by decide) (fun _ => by simp [Apart]) hd
      (by decide +kernel) (by decide +kernel) (fun x hx hne => ?_)
    rcases inTurns_spare hx with ⟨he,_⟩ | ⟨_,hspares⟩
    · exact absurd he hne
    · exact hspares
  · have hd : deviceTransfer oneElement.chip ⟨0,.read,1,.none,.idle,true,⟨0,200⟩,[],[],[]⟩ 0
        toDevice = some toDeviceDesc := by decide +kernel
    refine request_arrived oneElement_laid (.refl _) hr (Or.inr rfl)
      (fun d hd => absurd hd List.not_mem_nil) (by decide) (by decide)
      ⟨by decide,by decide,by decide⟩ (by decide) (fun h => by contradiction) hd
      (by decide +kernel) (by decide +kernel) (fun x hx hne => ?_)
    rcases inTurns_spare hx with ⟨_,hspares⟩ | ⟨he,_⟩
    · exact hspares
    · exact absurd he hne

end AkidaEdma.Execution
