import AkidaEdma.Probe.DeviceProbe
import Mathlib

/-! # Probing and removing several devices

Any number of devices of both boards, each at its own step and in any order. They share the
ledger, in it the numbers of their board, and the reference count of the module.
-/
namespace AkidaEdma.DeviceProbe
open Ledger Probe Driver DwEdma Transition

variable {κ : Type*} [DecidableEq κ]

structure World (κ : Type*) where
  held : Finset (Resource κ)
  dev : κ → Dev κ
  refs : ℤ

/-- No device is there yet. -/
def World.init : World κ := ⟨∅,fun _ => { Dev.fresh with pc := .absent },0⟩

def World.step (F : Fleet κ) (s : World κ) (l : κ × Answer κ) : Option (World κ) :=
  ((s.dev l.1).next F l.1 l.2).bind fun r =>
    (exec s.held r.events).map fun held =>
      ⟨held,Function.update s.dev l.1 r.dev,s.refs + r.refs⟩

/-- What `dma_request_channel` can return for a device: a channel of a registered engine that
nobody has and that the filter passes. -/
structure Grantable (F : Fleet κ) (s : World κ) (k : κ) (w : Way) (g : DmaChan κ) : Prop where
  registered : .engine g.dev (.dmaDevice .dma) ∈ s.held
  id_lt : g.id < F.cnt g.dev g.dir
  free : .chan g ∉ s.held
  filter : akidaDmaChanFilter .main (F.edmaChip g.dev).regions.isLocal g (filterParam k w) = true

/-- The calls do what they are documented to do: `ida_alloc` finds a number that is not in use,
and `dma_request_channel` a channel as above. -/
structure Allowed (F : Fleet κ) (s : World κ) (l : κ × Answer κ) : Prop where
  id : (s.dev l.1).pc = .idaAlloc → .devno (F.board l.1) l.2.id ∉ s.held
  granted : ∀ c cs g, (s.dev l.1).pc = .request (c :: cs) → l.2.granted = some g →
    Grantable F s l.1 c.1 g

variable [Fintype κ]

/-- The ledger is what the devices have, each of them its own. -/
structure World.Sound (F : Fleet κ) (s : World κ) : Prop where
  held : ∀ x, x ∈ s.held ↔ ∃ k, x ∈ (s.dev k).has F k
  apart : ∀ j k x, x ∈ (s.dev j).has F j → x ∈ (s.dev k).has F k → j = k
  sound : ∀ k, (s.dev k).Sound F k
  refs : s.refs = ∑ k, (s.dev k).pc.transit

omit [DecidableEq κ] in
theorem init_sound (F : Fleet κ) : (World.init : World κ).Sound F := by
  have hnone : ∀ (k : κ) (x : Resource κ),
      x ∉ ({ Dev.fresh with pc := .absent } : Dev κ).has F k := fun _ => has_absent rfl
  refine ⟨fun x => ?_,fun j k x hj => absurd hj (hnone j x),fun k => ?_,?_⟩
  · simp [World.init,hnone]
  · exact ⟨nofun,nofun,nofun,trivial,nofun,nofun,nofun⟩
  · simp [World.init,Pc.transit]

omit [DecidableEq κ] in
/-- Nobody else has what is a device's own. -/
theorem World.Sound.mine_apart {F : Fleet κ} {s : World κ} (h : s.Sound F) {j k : κ} (hjk : j ≠ k)
    {x : Resource κ} (hx : x ∈ mine k) : x ∉ (s.dev j).has F j := by
  intro hj
  cases x with
  | vectors i => exact hjk (hj.1.symm.trans hx)
  | engine i r => exact hjk (hj.1.symm.trans hx)
  | devno b n => exact hx
  | misc i => exact hjk (hj.1.symm.trans hx)
  | chan g =>
    obtain ⟨c,_,hc⟩ := hj
    exact hjk (((h.sound j).suits c g hc).dev.symm.trans hx)

theorem World.Sound.grants {F : Fleet κ} {s : World κ} (h : s.Sound F) {l : κ × Answer κ}
    (ha : Allowed F s l) : (s.dev l.1).Granted F l.1 l.2 := by
  intro c cs g hpc hg
  have hgrant := ha.granted c cs g hpc hg
  obtain ⟨hdev,hdir⟩ := (filter_iff .main (F.edmaChip g.dev).regions rfl l.1 c.1 g).mp hgrant.filter
  rw [hdev] at hdir
  have hid := hgrant.id_lt
  rw [hdev] at hid
  refine ⟨⟨hdev,hdir,hid⟩,fun e he => hgrant.free ?_⟩
  refine (h.held _).mpr ⟨l.1,mem_has_chan.mpr ⟨e,?_,he⟩⟩
  rw [hpc]
  exact mem_initOrder e

/-- What all the others have. -/
def World.others (F : Fleet κ) (s : World κ) (k : κ) : Set (Resource κ) :=
  {x | ∃ j, j ≠ k ∧ x ∈ (s.dev j).has F j}

/-- A device changes, and the ledger with it. -/
theorem World.Sound.after {F : Fleet κ} {s t : World κ} (h : s.Sound F) {k : κ}
    (hother : ∀ j, j ≠ k → t.dev j = s.dev j)
    (hheld : ∀ x, x ∈ t.held ↔ x ∈ (t.dev k).has F k ∨ x ∈ s.others F k)
    (hdisj : ∀ x ∈ (t.dev k).has F k, x ∉ s.others F k) (hsound : (t.dev k).Sound F k)
    (hrefs : t.refs = s.refs + ((t.dev k).pc.transit - (s.dev k).pc.transit)) : t.Sound F := by
  have hcross : ∀ j x, j ≠ k → x ∈ (t.dev k).has F k → x ∉ (t.dev j).has F j := by
    intro j x hj hx hx'
    rw [hother j hj] at hx'
    exact hdisj x hx ⟨j,hj,hx'⟩
  refine ⟨fun x => ?_,fun i j x hi hj => ?_,fun j => ?_,?_⟩
  · rw [hheld]
    constructor
    · rintro (hx | ⟨j,hj,hx⟩)
      · exact ⟨k,hx⟩
      · exact ⟨j,by rw [hother j hj]; exact hx⟩
    · rintro ⟨j,hx⟩
      by_cases hj : j = k
      · exact Or.inl (hj ▸ hx)
      · rw [hother j hj] at hx
        exact Or.inr ⟨j,hj,hx⟩
  · by_cases hik : i = k
    · by_cases hjk : j = k
      · rw [hik,hjk]
      · exact absurd hj (hcross j x hjk (hik ▸ hi))
    · by_cases hjk : j = k
      · exact absurd hi (hcross i x hik (hjk ▸ hj))
      · rw [hother i hik] at hi
        rw [hother j hjk] at hj
        exact h.apart i j x hi hj
  · by_cases hj : j = k
    · exact hj ▸ hsound
    · rw [hother j hj]
      exact h.sound j
  · have hrest : ∑ j ∈ Finset.univ.erase k, (t.dev j).pc.transit =
        ∑ j ∈ Finset.univ.erase k, (s.dev j).pc.transit := by
      refine Finset.sum_congr rfl fun j hj => ?_
      rw [hother j (Finset.ne_of_mem_erase hj)]
    have hbefore := Finset.add_sum_erase Finset.univ (fun j => (s.dev j).pc.transit)
      (Finset.mem_univ k)
    have hafter := Finset.add_sum_erase Finset.univ (fun j => (t.dev j).pc.transit)
      (Finset.mem_univ k)
    have hsum := h.refs
    omega

/-- Whatever the devices are at and whatever the calls return, the next step of any of them can be
made, and keeps the ledger. -/
theorem World.Sound.step {F : Fleet κ} {s : World κ} (h : s.Sound F) {l : κ × Answer κ}
    (ha : Allowed F s l) : ∃ t, s.step F l = some t ∧ t.Sound F := by
  obtain ⟨r,hr,hsteps⟩ := next_steps (h.sound l.1) (h.grants ha)
  have hall : ∀ x, x ∈ s.held ↔ x ∈ (s.dev l.1).has F l.1 ∨ x ∈ s.others F l.1 := by
    intro x
    rw [h.held]
    constructor
    · rintro ⟨j,hj⟩
      by_cases hjk : j = l.1
      · exact Or.inl (hjk ▸ hj)
      · exact Or.inr ⟨j,hjk,hj⟩
    · rintro (hx | ⟨j,_,hj⟩)
      · exact ⟨l.1,hx⟩
      · exact ⟨j,hj⟩
  have hfresh : ∀ x ∈ acquired r.events, x ∉ s.others F l.1 := by
    rintro x hx ⟨j,hj,hx'⟩
    rcases hsteps.fresh x hx with hmine | ⟨hpc,rfl⟩
    · exact h.mine_apart hj hmine hx'
    · exact ha.id hpc ((h.held _).mpr ⟨j,hx'⟩)
  obtain ⟨held,hexec,hheld,hdisj⟩ := hsteps.brings s.held (s.others F l.1) hall
    (fun x hx ⟨j,hj,hx'⟩ => hj (h.apart _ _ x hx' hx))
    (fun x hx ⟨j,hj,hx'⟩ => h.mine_apart hj hx hx') hfresh
  obtain ⟨t,ht⟩ : ∃ t : World κ, t = ⟨held,Function.update s.dev l.1 r.dev,s.refs + r.refs⟩ :=
    ⟨_,rfl⟩
  have hself : t.dev l.1 = r.dev := by
    rw [ht]
    exact Function.update_self _ _ _
  refine ⟨t,?_,h.after (k := l.1) (fun j hj => ?_) ?_ ?_ ?_ ?_⟩
  · rw [World.step,hr,Option.bind_some,hexec,Option.map_some,ht]
  · rw [ht]
    exact Function.update_of_ne hj _ _
  · rw [hself,ht]
    exact hheld
  · rw [hself]
    exact hdisj
  · rw [hself]
    exact hsteps.sound
  · rw [hself,ht,← hsteps.refs]

theorem step_sound {F : Fleet κ} {s t : World κ} {l : κ × Answer κ} (h : s.Sound F)
    (ha : Allowed F s l) (he : s.step F l = some t) : t.Sound F := by
  obtain ⟨t',he',ht'⟩ := h.step ha
  rw [he] at he'
  exact Option.some.inj he' ▸ ht'

/-! ## What holds at any time -/

theorem miscName_inj {b b' : Board} {n m : ℕ} (h : miscName b n = miscName b' m) :
    b = b' ∧ n = m := by
  have hlist := congrArg String.toList h
  unfold miscName at hlist
  rw [String.toList_append,String.toList_append] at hlist
  cases b <;> cases b'
  · exact ⟨rfl,Nat.repr_injective (String.toList_injective (List.append_cancel_left hlist))⟩
  · simp [miscdevName] at hlist
  · simp [miscdevName] at hlist
  · exact ⟨rfl,Nat.repr_injective (String.toList_injective (List.append_cancel_left hlist))⟩

/-- A bound on the steps that are left until the device is gone. -/
def Pc.rank : Pc → ℕ
  | .absent => 0
  | .freeIrqVectors => 1
  | .edmaRemove => 2
  | .exit cs | .free cs => 3 + 2 * cs.length
  | .exitRelease _ cs | .freeRelease _ cs => 4 + 2 * cs.length
  | .idaFree => 12
  | .probed => 13
  | .miscRegister => 14
  | .idaAlloc => 15
  | .request cs => 16 + 2 * cs.length
  | .put cs => 17 + 2 * cs.length
  | .edmaProbe => 25
  | .msiEnabled => 26
  | .irqVectors => 27

omit [DecidableEq κ] [Fintype κ] in
theorem next_rank {F : Fleet κ} {k : κ} {a : Answer κ} {d : Dev κ} {r : Done κ}
    (h : d.next F k a = some r) (hpc : d.pc ≠ .absent) : r.dev.pc.rank < d.pc.rank := by
  have hfree : ∀ w, (freeOrder w).length ≤ 4 := by
    intro w
    cases w <;> decide
  have hexit : exitOrder.length = 4 := rfl
  have hinit : initOrder.length = 4 := rfl
  cases hd : d.pc with
  | absent => exact absurd hd hpc
  | edmaProbe =>
    simp only [Dev.next,hd] at h
    obtain ⟨q,_,rfl⟩ := Option.map_eq_some_iff.mp h
    split <;> simp [Pc.rank,hinit]
  | request cs =>
    cases cs with
    | nil =>
      simp only [Dev.next,hd] at h
      obtain rfl := Option.some.inj h
      simp [Pc.rank]
    | cons c cs =>
      simp only [Dev.next,hd] at h
      have hlen := hfree c.1
      split at h <;> obtain rfl := Option.some.inj h <;> simp only [Pc.rank,List.length_cons] <;>
        omega
  | free cs =>
    cases cs with
    | nil =>
      simp only [Dev.next,hd] at h
      obtain rfl := Option.some.inj h
      simp [Pc.rank]
    | cons c cs =>
      simp only [Dev.next,hd] at h
      split at h <;> obtain rfl := Option.some.inj h <;> simp only [Pc.rank,List.length_cons] <;>
        omega
  | exit cs =>
    cases cs with
    | nil =>
      simp only [Dev.next,hd] at h
      obtain rfl := Option.some.inj h
      simp [Pc.rank]
    | cons c cs =>
      simp only [Dev.next,hd] at h
      obtain ⟨_,_,rfl⟩ := Option.map_eq_some_iff.mp h
      simp only [Pc.rank,List.length_cons]
      omega
  | freeRelease c cs =>
    simp only [Dev.next,hd] at h
    obtain ⟨_,_,rfl⟩ := Option.map_eq_some_iff.mp h
    simp only [Pc.rank]
    omega
  | exitRelease c cs =>
    simp only [Dev.next,hd] at h
    obtain ⟨_,_,rfl⟩ := Option.map_eq_some_iff.mp h
    simp only [Pc.rank]
    omega
  | idaFree =>
    simp only [Dev.next,hd] at h
    obtain rfl := Option.some.inj h
    dsimp only
    split <;> simp [Pc.rank,hexit]
  | _ =>
    simp only [Dev.next,hd] at h
    first
      | obtain rfl := Option.some.inj h
        simp [Pc.rank]
      | split at h <;> obtain rfl := Option.some.inj h <;> simp [Pc.rank,hexit]

/-- What a probed device holds. -/
structure Holds (F : Fleet κ) (s : World κ) (k : κ) : Prop where
  ret : (s.dev k).ret = 0
  vectors : .vectors k ∈ s.held
  engine : ∃ p, (s.dev k).dw = some p ∧ ∀ r, .engine k r ∈ s.held ↔ r ∈ engineResources p.nrIrqs
  chan : ∀ c, ∃ g, (s.dev k).chan c = some g ∧ Suits F k c.1 g ∧ .chan g ∈ s.held
  distinct : Function.Injective (s.dev k).chan
  devno : .devno (F.board k) (s.dev k).devno ∈ s.held
  misc : .misc k ∈ s.held

/-- The account of the devices: one that is absent holds nothing, one that is probed everything, a
probe that is undone does not return 0, no two misc devices have the same name, with all devices
gone nothing is left, and whatever a call returns the next step can be made, towards an end. -/
structure Accounted (F : Fleet κ) (s : World κ) : Prop where
  absent : ∀ k, (s.dev k).pc = .absent → ∀ x ∈ mine k, x ∉ s.held
  probed : ∀ k, (s.dev k).pc = .probed → Holds F s k
  undone : ∀ k, (s.dev k).pc.undoing = true → (s.dev k).removing = false → (s.dev k).ret ≠ 0
  names : ∀ j k name, (s.dev j).pc = .probed → (s.dev k).pc = .probed →
    (s.dev j).name = some name → (s.dev k).name = some name → j = k
  gone : (∀ k, (s.dev k).pc = .absent) → s.held = ∅ ∧ s.refs = 0
  refs : 0 ≤ s.refs
  goes : ∀ l, Allowed F s l → ∃ t, s.step F l = some t ∧
    ((s.dev l.1).pc ≠ .absent → (t.dev l.1).pc.rank < (s.dev l.1).pc.rank)

omit [DecidableEq κ] in
theorem World.Sound.holds {F : Fleet κ} {s : World κ} (h : s.Sound F) {k : κ}
    (hpc : (s.dev k).pc = .probed) : Holds F s k := by
  have hown : ∀ x, x ∈ (s.dev k).has F k → x ∈ s.held := fun x hx => (h.held x).mpr ⟨k,hx⟩
  have hall : ∀ c, (s.dev k).chan c ≠ none := by
    have hstands := (h.sound k).stands
    rw [hpc] at hstands
    exact hstands
  obtain ⟨p,hp⟩ := (h.sound k).dw (by rw [hpc]; rfl)
  refine ⟨(h.sound k).fine hpc,hown _ ⟨rfl,by rw [hpc]; rfl⟩,⟨p,hp,fun r => ⟨fun hr => ?_,fun hr =>
    hown _ ⟨rfl,by rw [hpc]; rfl,p,hp,hr⟩⟩⟩,fun c => ?_,fun c e hce => ?_,
    hown _ ⟨rfl,by rw [hpc]; rfl,rfl⟩,hown _ ⟨rfl,hpc⟩⟩
  · obtain ⟨j,hj⟩ := (h.held _).mp hr
    obtain ⟨rfl,_,q,hq,hmem⟩ := mem_has_engine.mp hj
    rw [hp] at hq
    exact Option.some.inj hq ▸ hmem
  · obtain ⟨g,hg⟩ := Option.ne_none_iff_exists'.mp (hall c)
    refine ⟨g,hg,(h.sound k).suits c g hg,hown _ ⟨c,?_,hg⟩⟩
    rw [hpc]
    exact mem_initOrder c
  · obtain ⟨g,hg⟩ := Option.ne_none_iff_exists'.mp (hall c)
    exact (h.sound k).inj c e g hg (hce ▸ hg)

omit [DecidableEq κ] in
theorem World.Sound.names {F : Fleet κ} {s : World κ} (h : s.Sound F) {j k : κ} {name : String}
    (hj : (s.dev j).pc = .probed) (hk : (s.dev k).pc = .probed)
    (hnj : (s.dev j).name = some name) (hnk : (s.dev k).name = some name) : j = k := by
  have hname : ∀ i, (s.dev i).pc = .probed → (s.dev i).name = some name →
      name = miscName (F.board i) (s.dev i).devno := by
    intro i hi hn
    rcases (h.sound i).named (by rw [hi]; rfl) with hnone | hsome
    · rw [hnone] at hn
      contradiction
    · exact Option.some.inj (hn.symm.trans hsome)
  obtain ⟨hboard,hdevno⟩ := miscName_inj ((hname j hj hnj).symm.trans (hname k hk hnk))
  refine h.apart j k (.devno (F.board j) (s.dev j).devno) ⟨rfl,by rw [hj]; rfl,rfl⟩ ?_
  exact ⟨hboard,by rw [hk]; rfl,hdevno⟩

omit [Fintype κ] in
theorem step_dev {F : Fleet κ} {s t : World κ} {l : κ × Answer κ} (he : s.step F l = some t) :
    ∃ r, (s.dev l.1).next F l.1 l.2 = some r ∧ t.dev l.1 = r.dev := by
  obtain ⟨r,hr,he⟩ := Option.bind_eq_some_iff.mp he
  obtain ⟨held,_,rfl⟩ := Option.map_eq_some_iff.mp he
  exact ⟨r,hr,Function.update_self _ _ _⟩

/-- Any number of devices of both boards can be probed and removed at the same time, with any of
the calls failing. -/
theorem devices_accounted {F : Fleet κ} {ls : List (κ × Answer κ)} {t : World κ}
    (hr : Runs (World.step F) (Allowed F) World.init ls t) : Accounted F t := by
  have h : t.Sound F := hr.invariant (fun _ _ _ h ha he => step_sound h ha he) (init_sound F)
  have htransit : ∀ pc : Pc, 0 ≤ pc.transit := by
    intro pc
    cases pc <;> simp [Pc.transit]
  refine ⟨fun k hpc x hx hheld => ?_,fun k hpc => h.holds hpc,fun k => (h.sound k).failed,
    fun j k name => h.names,fun hgone => ⟨?_,?_⟩,?_,fun l ha => ?_⟩
  · obtain ⟨j,hj⟩ := (h.held x).mp hheld
    by_cases hjk : j = k
    · exact has_absent hpc x (hjk ▸ hj)
    · exact h.mine_apart hjk hx hj
  · ext x
    rw [h.held]
    constructor
    · rintro ⟨k,hk⟩
      exact absurd hk (has_absent (hgone k) x)
    · intro hx
      contradiction
  · rw [h.refs]
    exact Finset.sum_eq_zero fun k _ => by rw [hgone k]; rfl
  · rw [h.refs]
    exact Finset.sum_nonneg fun k _ => htransit _
  · obtain ⟨u,hu,_⟩ := h.step ha
    refine ⟨u,hu,fun hpc => ?_⟩
    obtain ⟨r,hnext,hdev⟩ := step_dev hu
    rw [hdev]
    exact next_rank hnext hpc

/-! ## Two devices, one of which is not registered -/

instance (F : Fleet κ) (s : World κ) (k : κ) (w : Way) (g : DmaChan κ) :
    Decidable (Grantable F s k w g) :=
  decidable_of_iff (.engine g.dev (.dmaDevice .dma) ∈ s.held ∧ g.id < F.cnt g.dev g.dir ∧
      .chan g ∉ s.held ∧ akidaDmaChanFilter .main (F.edmaChip g.dev).regions.isLocal g
        (filterParam k w) = true)
    ⟨fun h => ⟨h.1,h.2.1,h.2.2.1,h.2.2.2⟩,fun h => ⟨h.registered,h.id_lt,h.free,h.filter⟩⟩

/-- `Allowed`, by the step that the device is at. -/
def allows (F : Fleet κ) (s : World κ) (l : κ × Answer κ) : Bool :=
  match (s.dev l.1).pc,l.2.granted with
  | .idaAlloc, _ => decide (.devno (F.board l.1) l.2.id ∉ s.held)
  | .request (c :: _), some g => decide (Grantable F s l.1 c.1 g)
  | _, _ => true

omit [Fintype κ] in
theorem allows_iff (F : Fleet κ) (s : World κ) (l : κ × Answer κ) :
    allows F s l = true ↔ Allowed F s l := by
  constructor
  · intro h
    refine ⟨fun hpc => ?_,fun c cs g hpc hg => ?_⟩
    · simpa [allows,hpc] using h
    · simpa [allows,hpc,hg] using h
  · intro h
    unfold allows
    split
    · rename_i hpc
      exact decide_eq_true (h.id hpc)
    · rename_i hpc hg
      exact decide_eq_true (h.granted _ _ _ hpc hg)
    · rfl

instance (F : Fleet κ) (s : World κ) (l : κ × Answer κ) : Decidable (Allowed F s l) :=
  decidable_of_iff _ (allows_iff F s l)

/-- Two boards with two channels in each direction. -/
def twoBoards : Fleet (Fin 2) := ⟨fun _ => .akida1500,.plain,fun _ => 0,fun _ _ => 2⟩

def granting (dev : Fin 2) (g : Option (DmaChan (Fin 2))) : Fin 2 × Answer (Fin 2) :=
  (dev,⟨0,dev,true,g,⟨true,true,true,fun _ => 0,fun _ => 0⟩⟩)

/-- The steps of a probe up to the registration, with everything granted. -/
def probeSteps (dev : Fin 2) : List (Fin 2 × Answer (Fin 2)) :=
  List.replicate 4 (granting dev none) ++
    [(.write,0),(.write,1),(.read,0),(.read,1)].flatMap (fun c =>
      [granting dev (some ⟨dev,c.1,c.2⟩),granting dev none]) ++
    List.replicate 2 (granting dev none)

/-- Two devices take their steps in turn; the second one cannot be registered and goes back. -/
def oneRefused (j k : Fin 2) : List (Fin 2 × Answer (Fin 2)) :=
  ((probeSteps j).zip (probeSteps k)).flatMap (fun l => [l.1,l.2]) ++
    [granting j none,(k,{ (granting k none).2 with err := -EBUSY })] ++
    List.replicate 12 (granting k none)

theorem oneRefused_runs :
    (check (World.step twoBoards) (Allowed twoBoards) World.init (oneRefused 0 1)).isSome = true := by
  decide +kernel

theorem oneRefused_accounted : ∃ t,
    Runs (World.step twoBoards) (Allowed twoBoards) World.init (oneRefused 0 1) t ∧
    (t.dev 0).pc = .probed ∧ Holds twoBoards t 0 ∧
    (t.dev 1).pc = .absent ∧ (t.dev 1).ret = -EBUSY ∧ ∀ x ∈ mine 1, x ∉ t.held := by
  have hr := runs_of_check (Option.some_get oneRefused_runs).symm
  have h := devices_accounted hr
  exact ⟨_,hr,by decide +kernel,h.probed 0 (by decide +kernel),by decide +kernel,by decide +kernel,
    h.absent 1 (by decide +kernel)⟩

end AkidaEdma.DeviceProbe
