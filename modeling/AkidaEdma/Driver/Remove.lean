import AkidaEdma.Driver.Completion

/-! # Removing the device

`akida_remove` against calls on files that are still open. `misc_deregister` only keeps new
files from being opened, and nothing in `akida_dma_exit` looks at `is_used`.
-/
namespace AkidaEdma.Driver
open DwEdma Transition

/-- The channels in the order of the two loops of `akida_dma_exit`. -/
def exitOrder : List ChanId :=
  (List.finRange 2).map (fun i => (.tx,i)) ++ (List.finRange 2).map fun i => (.rx,i)

/-- Where `akida_remove` is, by what it does next: on a channel first
`dmaengine_terminate_sync`, then `dma_release_channel`. The list holds the channels after
this one. -/
inductive Remover
  | probed
  | terminate (c : ChanId) (cs : List ChanId)
  | release (c : ChanId) (cs : List ChanId)
  | edmaRemove
  | returned
  deriving DecidableEq, Repr

/-- The head of the loops of `akida_dma_exit`. -/
def Remover.exit : List ChanId → Remover
  | [] => .edmaRemove
  | c :: cs => .terminate c cs

/-- The device while it is removed. -/
structure Removal where
  sys : State
  remover : Remover
  released : ChanId → Bool

def Removal.init (dev : Device) : Removal := ⟨State.init dev,.probed,fun _ => false⟩

/-- What the environment decides at a step of `akida_remove`: the value of
`dw_edma_core_ch_status`, and whether the five seconds of `dw_edma_free_chan_resources` are
over. -/
structure RemoveChoice where
  st : DmaStatus
  late : Bool
  deriving DecidableEq, Repr

/-- `dw_edma_device_terminate_all` on a channel. -/
def Removal.terminateAll (dev : Device) (s : Removal) (c : ChanId) (st : DmaStatus) :
    Option Removal :=
  ((s.sys.chans c).op dev (.terminateAll st)).map fun d => { s with sys := s.sys.setChan c d }

/-- The next step of `akida_remove`, on a device that was probed completely. The result of
`dmaengine_terminate_sync` is not looked at; the loop of `dw_edma_free_chan_resources` goes on
while the channel refuses to terminate. -/
def Removal.remove (dev : Device) (s : Removal) (ch : RemoveChoice) : Option Removal :=
  match s.remover with
  | .probed => some { s with remover := .exit exitOrder }
  | .terminate c cs =>
    (s.terminateAll dev c ch.st).map fun s => { s with remover := .release c cs }
  | .release c cs =>
    (s.terminateAll dev c ch.st).map fun t =>
      if (deviceTerminateAll ch.st (s.sys.chans c).engine.chan).2 = 0 ∨ ch.late then
        { t with remover := .exit cs, released := Function.update s.released c true }
      else t
  | .edmaRemove => some { s with remover := .returned }
  | .returned => none

namespace Removal

inductive Label
  | sys (l : Driver.Label)
  | remove (ch : RemoveChoice)
  deriving DecidableEq, Repr

/-- `akida_dw_edma_remove` frees the interrupts and kills the tasklets. -/
def Alive (r : Remover) : Driver.Label → Bool
  | .interrupt _ => r != .returned
  | .tasklet _ => r != .returned
  | _ => true

def step (dev : Device) (s : Removal) : Label → Option Removal
  | .sys l => if Alive s.remover l then
      (Driver.step dev s.sys l).map fun sys => { s with sys := sys } else none
  | .remove ch => s.remove dev ch

end Removal

/-! ## What a step can do -/

theorem terminateAll_eq (dev : Device) (s : Removal) (c : ChanId) (st : DmaStatus) :
    ∃ d, s.terminateAll dev c st = some { s with sys := s.sys.setChan c d } := ⟨_,rfl⟩

inductive Removal.Moves (s : Removal) : Removal → Prop
  | deregister (hr : s.remover = .probed) : Moves s { s with remover := .exit exitOrder }
  | terminate {c : ChanId} {cs : List ChanId} (d : DmaChan) (hr : s.remover = .terminate c cs) :
      Moves s { s with sys := s.sys.setChan c d, remover := .release c cs }
  | refused {c : ChanId} {cs : List ChanId} (d : DmaChan) (hr : s.remover = .release c cs) :
      Moves s { s with sys := s.sys.setChan c d }
  | release {c : ChanId} {cs : List ChanId} (d : DmaChan) (hr : s.remover = .release c cs) :
      Moves s ⟨s.sys.setChan c d,.exit cs,Function.update s.released c true⟩
  | returned (hr : s.remover = .edmaRemove) : Moves s { s with remover := .returned }

theorem remove_moves {dev : Device} {s t : Removal} {ch : RemoveChoice}
    (h : s.remove dev ch = some t) : s.Moves t := by
  unfold Removal.remove at h
  split at h
  · rename_i hr
    cases h
    exact .deregister hr
  · rename_i c cs hr
    obtain ⟨d,hd⟩ := terminateAll_eq dev s c ch.st
    rw [hd] at h
    cases h
    exact .terminate d hr
  · rename_i c cs hr
    obtain ⟨d,hd⟩ := terminateAll_eq dev s c ch.st
    rw [hd,Option.map_some] at h
    split at h
    · cases h
      exact .release d hr
    · cases h
      exact .refused d hr
  · rename_i hr
    cases h
    exact .returned hr
  · contradiction

/-- The channel that call `k` takes if it runs now. -/
def State.grabs (s : State) (k : ℕ) : Option ChanId :=
  match s.calls k with
  | some a =>
    match a.phase with
    | .acquire => getUnusedChan s.isUsed a.way
    | .asleep _ => getUnusedChan s.isUsed a.way
    | _ => none
  | none => none

theorem grabs_waits {s : State} {k : ℕ} {a : Call} (ha : s.calls k = some a)
    (hp : a.phase.Waits) : s.grabs k = getUnusedChan s.isUsed a.way := by
  unfold State.grabs
  rw [ha]
  cases hphase : a.phase <;> rw [hphase] at hp <;> simp only [hphase] <;> contradiction

theorem acquire_has {s : State} {k : ℕ} {a : Call} {c : ChanId} {signal : Bool}
    (h : getUnusedChan s.isUsed a.way = some c) : (s.acquire k a signal).Has k c := by
  simp only [State.acquire,h]
  exact setCall_has.mpr (Or.inl ⟨rfl,rfl⟩)

/-- It takes that one. -/
theorem run_grabs {dev : Device} {s t : State} {k : ℕ} {ch : Choice} {c : ChanId}
    (h : s.grabs k = some c) (he : s.run dev k ch = some t) : t.Has k c := by
  unfold State.grabs at h
  unfold State.run at he
  cases ha : s.calls k with
  | none =>
    rw [ha] at h
    contradiction
  | some a =>
    simp only [ha] at h he
    cases hp : a.phase with
    | acquire =>
      simp only [hp] at h he
      cases he
      exact acquire_has h
    | asleep w =>
      simp only [hp] at h he
      split at he
      · cases he
        exact acquire_has h
      · contradiction
    | _ =>
      rw [hp] at h
      contradiction

/-- A channel comes into use only by a call that takes it. -/
theorem step_isUsed {dev : Device} {s t : State} {l : Label} {c : ChanId}
    (he : step dev s l = some t) (h : t.isUsed c = true) :
    s.isUsed c = true ∨ ∃ k ch, l = .run k ch ∧ s.grabs k = some c := by
  cases l with
  | enter k way pos sz ok =>
    simp only [step] at he
    split at he <;> cases he
    exact Or.inl h
  | run k ch =>
    obtain ⟨a,ha,hm⟩ := run_moves he
    cases hm with
    | @took e hp hc =>
      by_cases hce : c = e
      · exact Or.inr ⟨k,ch,rfl,by rw [grabs_waits ha hp,hc,hce]⟩
      · refine Or.inl ?_
        rw [← h]
        exact (Function.update_of_ne hce ..).symm
    | @release e ret hp =>
      by_cases hce : c = e
      · have hfree : (s.release k a e ret).isUsed c = false := by
          rw [hce]
          exact Function.update_self ..
        rw [hfree] at h
        contradiction
      · refine Or.inl ?_
        rw [← h]
        exact (Function.update_of_ne hce ..).symm
    | _ => exact Or.inl h
  | finish e irq =>
    obtain ⟨d,_,rfl⟩ := Option.map_eq_some_iff.mp he
    exact Or.inl h
  | interrupt e =>
    obtain ⟨d,_,rfl⟩ := Option.map_eq_some_iff.mp he
    exact Or.inl h
  | tasklet e =>
    obtain ⟨d,_,rfl⟩ := Option.map_eq_some_iff.mp he
    exact Or.inl h

/-! ## Released channels -/

/-- The channels that are still to be released. -/
def Remover.ahead : Remover → List ChanId
  | .probed => exitOrder
  | .terminate c cs => c :: cs
  | .release c cs => c :: cs
  | .edmaRemove => []
  | .returned => []

theorem ahead_exit (cs : List ChanId) : (Remover.exit cs).ahead = cs := by cases cs <;> rfl

/-- The channel that the next step of `akida_remove` may release. -/
def Remover.releases : Remover → Option ChanId
  | .release c _ => some c
  | _ => none

/-- The removal does not release a channel in use, and no call takes a released channel. -/
def Removal.Careful (s : Removal) : Removal.Label → Prop
  | .remove _ => ∀ c ∈ s.remover.releases, s.sys.isUsed c = false
  | .sys (.run k _) => ∀ c ∈ s.sys.grabs k, s.released c = false
  | .sys _ => True

instance (s : Removal) : ∀ l, Decidable (s.Careful l)
  | .remove _ => inferInstanceAs (Decidable (∀ c ∈ s.remover.releases, s.sys.isUsed c = false))
  | .sys (.run k _) => inferInstanceAs (Decidable (∀ c ∈ s.sys.grabs k, s.released c = false))
  | .sys (.enter ..) => isTrue trivial
  | .sys (.finish ..) => isTrue trivial
  | .sys (.interrupt _) => isTrue trivial
  | .sys (.tasklet _) => isTrue trivial

/-- No call is in `akida_dma_transfer` on a released channel, and after the removal no call is
between its acquire and its release of a channel. -/
structure Removal.Quiet (s : Removal) : Prop where
  transfers : ∀ c, s.released c = true → ∀ k a x, s.sys.calls k = some a →
    a.phase ≠ .transfer c x
  returned : s.remover = .returned → ∀ k c, ¬ s.sys.Between k c

/-- The invariant of careful runs. -/
structure Removal.Safe (s : Removal) : Prop where
  owned : Owned s.sys
  free : ∀ c, s.released c = true → s.sys.isUsed c = false
  ahead : ∀ c, s.released c = true ∨ c ∈ s.remover.ahead

theorem mem_exitOrder : ∀ c, c ∈ exitOrder
  | (.tx,i) => List.mem_append_left _ (List.mem_map_of_mem (List.mem_finRange i))
  | (.rx,i) => List.mem_append_right _ (List.mem_map_of_mem (List.mem_finRange i))

theorem init_safe (dev : Device) : (Removal.init dev).Safe :=
  ⟨owned_init dev,fun _ h => by contradiction,fun c => Or.inr (mem_exitOrder c)⟩

theorem Removal.Safe.quiet {s : Removal} (h : s.Safe) : s.Quiet := by
  have hhas : ∀ c, s.released c = true → ∀ k, ¬ s.sys.Has k c := by
    intro c hc k hk
    have hfree := h.free c hc
    rw [h.owned.used k c hk] at hfree
    contradiction
  refine ⟨?_,?_⟩
  · intro c hc k a x ha hx
    exact hhas c hc k ⟨a,ha,by rw [hx]; rfl⟩
  · intro hr k c hk
    rcases h.ahead c with hc | hc
    · exact hhas c hc k ((h.owned.between_iff k c).mp hk)
    · rw [hr] at hc
      exact absurd hc List.not_mem_nil

/-- Whatever the removal does, a channel in use is that of one call. -/
theorem removal_owned {dev : Device} {s t : Removal} {l : Removal.Label} (h : Owned s.sys)
    (he : s.step dev l = some t) : Owned t.sys := by
  cases l with
  | remove ch =>
    cases remove_moves he with
    | terminate d _ => exact h.setChan _ d
    | refused d _ => exact h.setChan _ d
    | release d _ => exact h.setChan _ d
    | _ => exact h
  | sys l =>
    simp only [Removal.step] at he
    split at he
    · obtain ⟨sys,hs,rfl⟩ := Option.map_eq_some_iff.mp he
      exact step_owned h hs
    · contradiction

theorem moves_safe {s t : Removal} (h : s.Safe) (ht : Owned t.sys)
    (hg : ∀ c ∈ s.remover.releases, s.sys.isUsed c = false) (hm : s.Moves t) : t.Safe := by
  cases hm with
  | deregister hr =>
    refine ⟨ht,h.free,fun c => Or.inr ?_⟩
    rw [ahead_exit]
    exact mem_exitOrder c
  | terminate d hr =>
    refine ⟨ht,h.free,fun e => ?_⟩
    have he := h.ahead e
    rw [hr] at he
    exact he
  | refused d hr => exact ⟨ht,h.free,h.ahead⟩
  | @release c cs d hr =>
    refine ⟨ht,?_,?_⟩
    · intro e he
      by_cases hec : e = c
      · rw [hec]
        exact hg c (by rw [hr]; rfl)
      · refine h.free e ?_
        rw [← he]
        exact (Function.update_of_ne hec ..).symm
    · intro e
      rw [ahead_exit]
      by_cases hec : e = c
      · rw [hec]
        exact Or.inl (Function.update_self ..)
      · rcases h.ahead e with he | he
        · exact Or.inl ((Function.update_of_ne hec ..).trans he)
        · rw [hr] at he
          exact Or.inr ((List.mem_cons.mp he).resolve_left hec)
  | returned hr =>
    refine ⟨ht,h.free,fun c => ?_⟩
    have hc := h.ahead c
    rw [hr] at hc
    exact hc

theorem step_safe {dev : Device} {s t : Removal} {l : Removal.Label} (h : s.Safe)
    (hg : s.Careful l) (he : s.step dev l = some t) : t.Safe := by
  have ht := removal_owned h.owned he
  cases l with
  | remove ch => exact moves_safe h ht hg (remove_moves he)
  | sys l =>
    simp only [Removal.step] at he
    split at he
    · obtain ⟨sys,hs,rfl⟩ := Option.map_eq_some_iff.mp he
      refine ⟨ht,?_,h.ahead⟩
      intro c hc
      by_contra hused
      rcases step_isUsed hs (by simpa using hused) with hu | ⟨k,ch,rfl,hk⟩
      · rw [h.free c hc] at hu
        contradiction
      · rw [hg c hk] at hc
        contradiction
    · contradiction

/-! ## Careless steps -/

/-- The steps that `akida_remove` takes when `dw_edma_free_chan_resources` gives up at once. -/
def Remover.rank : Remover → ℕ
  | .probed => 2 * exitOrder.length + 2
  | .terminate _ cs => 2 * cs.length + 3
  | .release _ cs => 2 * cs.length + 2
  | .edmaRemove => 1
  | .returned => 0

theorem rank_exit (cs : List ChanId) : (Remover.exit cs).rank = 2 * cs.length + 1 := by
  cases cs <;> rfl

theorem remove_late (dev : Device) {s : Removal} (h : s.remover ≠ .returned) :
    ∃ t, s.remove dev ⟨.complete,true⟩ = some t ∧ t.remover.rank < s.remover.rank ∧
      t.sys.calls = s.sys.calls := by
  unfold Removal.remove
  cases hr : s.remover with
  | probed => exact ⟨_,rfl,by rw [rank_exit]; simp [Remover.rank],rfl⟩
  | terminate c cs => exact ⟨_,rfl,by simp [Remover.rank],rfl⟩
  | release c cs =>
    obtain ⟨d,hd⟩ := terminateAll_eq dev s c .complete
    simp only [hd,Option.map_some,or_true,if_true]
    exact ⟨_,rfl,by rw [rank_exit]; simp [Remover.rank],rfl⟩
  | edmaRemove => exact ⟨_,rfl,by simp [Remover.rank],rfl⟩
  | returned => exact absurd hr h

/-- Whatever the calls do, `akida_remove` can run to its end alone. -/
theorem remove_returns (dev : Device) (s : Removal) :
    ∃ t, Reaches (Removal.step dev) free s t ∧ t.remover = .returned ∧
      t.sys.calls = s.sys.calls := by
  induction hn : s.remover.rank using Nat.strong_induction_on generalizing s with
  | _ n ih =>
    by_cases hr : s.remover = .returned
    · exact ⟨s,.refl s,hr,rfl⟩
    · obtain ⟨t,ht,hlt,hcalls⟩ := remove_late dev hr
      obtain ⟨u,hu,hret,hsame⟩ := ih t.remover.rank (hn ▸ hlt) t rfl
      have hone : Reaches (Removal.step dev) free s t :=
        .single trivial (l := .remove ⟨.complete,true⟩) ht
      exact ⟨u,hone.trans hu,hret,hsame.trans hcalls⟩

/-- A careless step leaves a call with a channel. -/
theorem careless_has {dev : Device} {s t : Removal} {l : Removal.Label} (h : s.Safe)
    (hg : ¬ s.Careful l) (he : s.step dev l = some t) :
    ∃ k c, t.sys.Has k c := by
  cases l with
  | remove ch =>
    simp only [Removal.Careful,not_forall] at hg
    obtain ⟨c,_,hu⟩ := hg
    obtain ⟨k,a,ha,hc⟩ := h.owned.held c (by simpa using hu)
    refine ⟨k,c,a,?_,hc⟩
    cases remove_moves he <;> exact ha
  | sys l =>
    cases l with
    | run k ch =>
      simp only [Removal.Careful,not_forall] at hg
      obtain ⟨c,hc,_⟩ := hg
      obtain ⟨sys,hs,rfl⟩ := Option.map_eq_some_iff.mp he
      exact ⟨k,c,run_grabs hc hs⟩
    | _ => exact absurd trivial hg

/-- A careful run stays quiet. After a careless step `akida_remove`, going on alone, returns
while a call still has a channel. -/
theorem remove_quiet {dev : Device} {s : Removal} {ls : List Removal.Label}
    (hr : Runs (Removal.step dev) Removal.Careful (Removal.init dev) ls s) :
    s.Quiet ∧ ∀ l t, s.step dev l = some t → ¬ s.Careful l →
      ∃ u, Reaches (Removal.step dev) free t u ∧ ¬ u.Quiet := by
  have h : s.Safe := hr.invariant (fun _ _ _ h hg he => step_safe h hg he) (init_safe dev)
  refine ⟨h.quiet,?_⟩
  intro l t he hg
  obtain ⟨k,c,hk⟩ := careless_has h hg he
  obtain ⟨u,hu,hret,hcalls⟩ := remove_returns dev t
  refine ⟨u,hu,fun hquiet => hquiet.returned hret k c ?_⟩
  obtain ⟨a,ha,hheld⟩ := ((removal_owned h.owned he).between_iff k c).mpr hk
  exact ⟨a,by rw [hcalls]; exact ha,hheld⟩

/-- One read of four bytes, to its end. -/
def wholeRead : List Label := oneRead ++ List.replicate 4 (.run 0 yes)

/-- The removal after a read. -/
theorem removed_quiet : ∃ s, check (Removal.step plainDevice) Removal.Careful
    (Removal.init plainDevice)
    (wholeRead.map .sys ++ List.replicate 10 (.remove ⟨.complete,false⟩)) = some s ∧
      s.remover = .returned ∧ s.Quiet := by
  have hex : check (Removal.step plainDevice) Removal.Careful (Removal.init plainDevice)
    (wholeRead.map .sys ++ List.replicate 10 (.remove ⟨.complete,false⟩)) = some _ := rfl
  exact ⟨_,hex,rfl,(remove_quiet (runs_of_check hex)).1⟩

/-- The removal while a reader has its channel: the reader goes on with the released channel,
configures it and prepares its descriptor on it, also after `akida_remove` returned. -/
theorem reader_pulled : ∃ s t, exec (Removal.step plainDevice) (Removal.init plainDevice)
    ([.sys (.enter 0 .rx 0 4 true),.sys (.run 0 yes)] ++
      List.replicate 10 (.remove ⟨.complete,false⟩)) = some s ∧
    s.released (.rx,0) = true ∧ s.remover = .returned ∧ s.sys.Between 0 (.rx,0) ∧
    exec (Removal.step plainDevice) s (List.replicate 4 (.sys (.run 0 yes))) = some t ∧
    (∃ a x, t.sys.calls 0 = some a ∧ a.phase = .transfer (.rx,0) x ∧ x.stage = .reinit) ∧
    ¬ s.Quiet := by
  have hex : exec (Removal.step plainDevice) (Removal.init plainDevice)
    ([.sys (.enter 0 .rx 0 4 true),.sys (.run 0 yes)] ++
      List.replicate 10 (.remove ⟨.complete,false⟩)) = some _ := rfl
  have hheld : ∀ s, exec (Removal.step plainDevice) (Removal.init plainDevice)
      ([.sys (.enter 0 .rx 0 4 true),.sys (.run 0 yes)] ++
        List.replicate 10 (.remove ⟨.complete,false⟩)) = some s → s.sys.Between 0 (.rx,0) := by
    intro s hs
    cases hex.symm.trans hs
    exact ⟨_,rfl,by decide,by decide⟩
  exact ⟨_,_,hex,rfl,rfl,hheld _ hex,rfl,⟨_,_,rfl,rfl,rfl⟩,
    fun hquiet => hquiet.returned rfl 0 _ (hheld _ hex)⟩

end AkidaEdma.Driver
