import AkidaEdma.Engine.HandleInt

/-! # No interrupt is lost or served twice

Each channel, with what the invocations have found and cleared of it, is a latch. An event is
pending from when it is raised until its bit is cleared, and called back once after that.
-/
namespace AkidaEdma.HandleInt
open AkidaEdma.DwEdma AkidaEdma.V0Core AkidaEdma.Registers Transition

/-! ## What a step of an invocation can do -/

inductive State.Turn (dw : Dw) (vs : Vectors) (s : State) (v : ℕ) (i : Invocation) (again : Bool) :
    State → Prop
  | call {c : HwChan} {k : Irq} (hc : i.calling = some (c,k)) : Turn dw vs s v i again
      ({ s with
        busy := Function.update s.busy c (s.busy c || again)
        called := Function.update s.called c (Latch.bump (s.called c) k) }.setCall v
          (some { i with calling := none, handled := true, ran := i.ran + 1 }))
  | clear {c : HwChan} {k : Irq} {rest : List (HwChan × Irq)} (hc : i.calling = none)
      (hf : i.found = (c,k) :: rest) : Turn dw vs s v i again
      ({ s with word := clearInt dw.core c k s.word }.setCall v
        (some { i with calling := some (c,k), found := rest }))
  | read {r : Read} {reads : List Read} (hc : i.calling = none) (hf : i.found = [])
      (hr : i.reads = r :: reads) : Turn dw vs s v i again
      (s.setCall v (some { i with found := dw.found (vs.irq v) s.word r, reads := reads }))
  | leave (hc : i.calling = none) (hf : i.found = []) : Turn dw vs s v i again (s.setCall v none)

theorem run_turn (dw : Dw) (vs : Vectors) (s : State) (v : ℕ) (i : Invocation) (again : Bool) :
    s.Turn dw vs v i again (s.run dw vs v i again) := by
  unfold State.run
  split
  · rename_i hc
    exact .call hc
  · rename_i hc hf
    exact .clear hc hf
  · rename_i hc hf hr
    exact .read hc hf hr
  · rename_i hc hf hr
    exact .leave hc hf

/-- An invocation of vector `v` handles the channels of `v`, and reports what it did. -/
structure Invocation.Fits (dw : Dw) (vs : Vectors) (v : ℕ) (i : Invocation) : Prop where
  calling : ∀ x, i.calling = some x → vs.Covers dw v x.1
  found : ∀ x ∈ i.found, vs.Covers dw v x.1
  nodup : i.found.Nodup
  reads : ∀ r ∈ i.reads, r ∈ (vs.enter dw v).reads
  handled : i.handled = true ↔ 0 < i.ran

def State.Fit (dw : Dw) (vs : Vectors) (s : State) : Prop :=
  ∀ v i, s.calls v = some i → i.Fits dw vs v

theorem setCall_fit {dw : Dw} {vs : Vectors} {s : State} (h : s.Fit dw vs) {v : ℕ}
    {i : Option Invocation} (hi : ∀ j, i = some j → j.Fits dw vs v) : (s.setCall v i).Fit dw vs := by
  intro w j hj
  simp only [State.setCall,Function.update_apply] at hj
  split at hj
  · rename_i hw
    rw [hw]
    exact hi j hj
  · exact h w j hj

theorem enter_fits (dw : Dw) (vs : Vectors) (v : ℕ) : (vs.enter dw v).Fits dw vs v :=
  ⟨fun _ h => by contradiction,fun _ h => by contradiction,List.nodup_nil,fun _ h => h,
    by simp [Vectors.enter]⟩

theorem turn_fit {dw : Dw} {vs : Vectors} {s t : State} {v : ℕ} {i : Invocation} {again : Bool}
    (h : s.Fit dw vs) (hi : s.calls v = some i) (ht : s.Turn dw vs v i again t) :
    t.Fit dw vs := by
  have hv := h v i hi
  have hs : ∀ word busy called, State.Fit dw vs ⟨word,busy,s.raised,called,s.calls⟩ :=
    fun _ _ _ => h
  cases ht with
  | call _ =>
    refine setCall_fit (hs _ _ _) ?_
    rintro _ ⟨⟩
    exact ⟨fun _ h => by contradiction,hv.found,hv.nodup,hv.reads,by simp⟩
  | clear _ hf =>
    have hfound := hv.found
    have hnodup := hv.nodup
    rw [hf] at hfound hnodup
    refine setCall_fit (hs _ _ _) ?_
    rintro _ ⟨⟩
    refine ⟨?_,fun x hx => hfound x (List.mem_cons_of_mem _ hx),(List.nodup_cons.mp hnodup).2,
      hv.reads,hv.handled⟩
    rintro _ ⟨⟩
    exact hfound _ List.mem_cons_self
  | read hc _ hr =>
    have hreads := hv.reads
    rw [hr] at hreads
    obtain ⟨hnodup,hsound⟩ := found_sound s.word (hreads _ List.mem_cons_self)
    refine setCall_fit h ?_
    rintro _ ⟨⟩
    refine ⟨?_,fun x hx => (hsound x hx).2,hnodup,
      fun r hr => hreads r (List.mem_cons_of_mem _ hr),hv.handled⟩
    intro x hx
    rw [hc] at hx
    contradiction
  | leave _ _ =>
    refine setCall_fit h ?_
    intro j hj
    contradiction

theorem step_fit {dw : Dw} {vs : Vectors} {s t : State} {l : Label} (h : s.Fit dw vs)
    (he : step dw vs s l = some t) : t.Fit dw vs := by
  cases l with
  | raise c k =>
    simp only [step] at he
    split at he <;> cases he
    exact h
  | start c =>
    simp only [step] at he
    split at he <;> cases he
    exact h
  | irq v =>
    simp only [step] at he
    split at he <;> cases he
    refine setCall_fit h ?_
    rintro _ ⟨⟩
    exact enter_fits dw vs v
  | run v again =>
    obtain ⟨i,hi,rfl⟩ := Option.map_eq_some_iff.mp he
    exact turn_fit h hi (run_turn dw vs s v i again)

/-! ## Each channel as a latch -/

/-- Some invocation has yet to clear the interrupt. -/
def State.Finds (s : State) (c : HwChan) (k : Irq) : Prop :=
  ∃ v i, s.calls v = some i ∧ (c,k) ∈ i.found

/-- Some invocation has cleared the interrupt and not called back yet. -/
def State.Calling (s : State) (c : HwChan) (k : Irq) : Prop :=
  ∃ v i, s.calls v = some i ∧ i.calling = some (c,k)

/-- The channel of the code, seen as a source of events. -/
def State.latch (s : State) (c : HwChan) (p : Latch.Phase Irq) : Latch.State Irq :=
  ⟨p,s.raised c,s.called c⟩

/-- Channel `c` shows phase `p`. -/
structure Shows (core : Core) (s : State) (c : HwChan) (p : Latch.Phase Irq) : Prop where
  balanced : Latch.Balanced (s.latch c p)
  busy : s.busy c = true ↔ p = .running
  bits : ∀ k, pending core s.word c k = true ↔ p = .latched k
  found : ∀ k, s.Finds c k → p = .latched k
  calling : ∀ k, s.Calling c k ↔ p = .taken k

theorem init_shows (core : Core) (c : HwChan) : Shows core .init c .idle := by
  refine ⟨fun _ => rfl,by simp [State.init],?_,?_,?_⟩
  · intro k
    simp [pending,State.init]
  · rintro k ⟨v,i,h,_⟩
    contradiction
  · intro k
    refine ⟨?_,fun h => by contradiction⟩
    rintro ⟨v,i,h,_⟩
    contradiction

/-- A step elsewhere. What it finds new on the channel is pending. -/
theorem Shows.frame {core : Core} {s t : State} {c : HwChan} {p : Latch.Phase Irq}
    (h : Shows core s c p) (hbusy : t.busy c = s.busy c) (hraised : t.raised c = s.raised c)
    (hcalled : t.called c = s.called c)
    (hbits : ∀ k, pending core t.word c k = true ↔ pending core s.word c k = true)
    (hfound : ∀ k, t.Finds c k → s.Finds c k ∨ pending core s.word c k = true)
    (hcalling : ∀ k, t.Calling c k ↔ s.Calling c k) : Shows core t c p := by
  refine ⟨?_,by rw [hbusy]; exact h.busy,fun k => (hbits k).trans (h.bits k),?_,
    fun k => (hcalling k).trans (h.calling k)⟩
  · have hsame : t.latch c p = s.latch c p := by rw [State.latch,State.latch,hraised,hcalled]
    rw [hsame]
    exact h.balanced
  · intro k hk
    rcases hfound k hk with hs | hs
    · exact h.found k hs
    · exact (h.bits k).mp hs

theorem setCall_finds {s : State} {v : ℕ} {i : Option Invocation} {c : HwChan} {k : Irq}
    (h : (s.setCall v i).Finds c k) : (∃ j, i = some j ∧ (c,k) ∈ j.found) ∨
      ∃ w j, w ≠ v ∧ s.calls w = some j ∧ (c,k) ∈ j.found := by
  obtain ⟨w,j,hj,hk⟩ := h
  simp only [State.setCall,Function.update_apply] at hj
  split at hj
  · exact Or.inl ⟨j,hj,hk⟩
  · rename_i hw
    exact Or.inr ⟨w,j,hw,hj,hk⟩

theorem setCall_calling {s : State} {v : ℕ} {i : Option Invocation} {c : HwChan} {k : Irq} :
    (s.setCall v i).Calling c k ↔ (∃ j, i = some j ∧ j.calling = some (c,k)) ∨
      ∃ w j, w ≠ v ∧ s.calls w = some j ∧ j.calling = some (c,k) := by
  constructor
  · rintro ⟨w,j,hj,hk⟩
    simp only [State.setCall,Function.update_apply] at hj
    split at hj
    · exact Or.inl ⟨j,hj,hk⟩
    · rename_i hw
      exact Or.inr ⟨w,j,hw,hj,hk⟩
  · rintro (⟨j,hj,hk⟩ | ⟨w,j,hw,hj,hk⟩)
    · exact ⟨v,j,(Function.update_self ..).trans hj,hk⟩
    · exact ⟨w,j,(Function.update_of_ne hw ..).trans hj,hk⟩

/-- Callbacks to come after a step of `v` whose own did not change on the channel. -/
theorem setCall_calling_iff {s : State} {v : ℕ} {i : Option Invocation} {c : HwChan} {k : Irq}
    (h : (∃ j, i = some j ∧ j.calling = some (c,k)) ↔
      ∃ j, s.calls v = some j ∧ j.calling = some (c,k)) :
    (s.setCall v i).Calling c k ↔ s.Calling c k := by
  rw [setCall_calling,h]
  constructor
  · rintro (⟨j,hj,hk⟩ | ⟨w,j,_,hj,hk⟩)
    · exact ⟨v,j,hj,hk⟩
    · exact ⟨w,j,hj,hk⟩
  · rintro ⟨w,j,hj,hk⟩
    by_cases hw : w = v
    · rw [hw] at hj
      exact Or.inl ⟨j,hj,hk⟩
    · exact Or.inr ⟨w,j,hw,hj,hk⟩

theorem raise_shows {core : Core} {s : State} {c : HwChan} {p : Latch.Phase Irq}
    (h : Shows core s c p) (hb : s.busy c = true) (k : Irq) :
    Shows core { s with
      word := setInt core c k s.word
      busy := Function.update s.busy c false
      raised := Function.update s.raised c (Latch.bump (s.raised c) k) } c (.latched k) := by
  have hp := h.busy.mp hb
  refine ⟨?_,?_,?_,?_,?_⟩
  · have hstep := Latch.step_balanced h.balanced (.raise k hp)
    simpa only [State.latch,Function.update_self] using hstep
  · simp
  · intro j
    rw [setInt_pending,h.bits,hp]
    simp [eq_comm]
  · intro j hj
    have hj' := h.found j hj
    rw [hp] at hj'
    contradiction
  · intro j
    refine ⟨fun hj => ?_,fun hj => by contradiction⟩
    have hj' := (h.calling j).mp hj
    rw [hp] at hj'
    contradiction

theorem start_shows {core : Core} {s : State} {c : HwChan} {p : Latch.Phase Irq}
    (h : Shows core s c p) (hb : s.busy c = false) (hr : ∀ k, s.raised c k = s.called c k) :
    Shows core { s with busy := Function.update s.busy c true } c .running := by
  have hne : p ≠ .running := by
    intro hp
    rw [h.busy.mpr hp] at hb
    contradiction
  have hp : p = .idle := h.balanced.idle hne hr
  refine ⟨Latch.step_balanced h.balanced (.start hp),by simp,?_,?_,?_⟩
  · intro k
    rw [h.bits,hp]
    simp
  · intro k hk
    have hk' := h.found k hk
    rw [hp] at hk'
    contradiction
  · intro k
    refine ⟨fun hk => ?_,fun hk => by contradiction⟩
    have hk' := (h.calling k).mp hk
    rw [hp] at hk'
    contradiction

theorem clear_shows {dw : Dw} {vs : Vectors} {s : State} {v : ℕ} {i : Invocation} {c : HwChan}
    {k : Irq} {rest : List (HwChan × Irq)} {p : Latch.Phase Irq} (hfit : s.Fit dw vs)
    (h : Shows dw.core s c p) (hi : s.calls v = some i) (hf : i.found = (c,k) :: rest) :
    Shows dw.core ({ s with word := clearInt dw.core c k s.word }.setCall v
      (some { i with calling := some (c,k), found := rest })) c (.taken k) := by
  have hv := hfit v i hi
  have hfirst : (c,k) ∈ i.found := by
    rw [hf]
    exact List.mem_cons_self
  have hmine : vs.Covers dw v c := hv.found _ hfirst
  have hp : p = .latched k := h.found k ⟨v,i,hi,hfirst⟩
  refine ⟨Latch.step_balanced h.balanced (.clear k hp),?_,?_,?_,?_⟩
  · have hbusy := h.busy
    rw [hp] at hbusy
    simpa [State.setCall] using hbusy
  · intro j
    simp only [State.setCall]
    rw [clearInt_pending,h.bits,hp]
    simp [eq_comm]
  · intro j hj
    exfalso
    rcases setCall_finds hj with ⟨_,⟨⟩,hrest⟩ | ⟨w,b,hw,hb,hmem⟩
    · -- it was found only once
      have hj' : p = .latched j := h.found j ⟨v,i,hi,by rw [hf]; exact List.mem_cons_of_mem _ hrest⟩
      have hjk : k = j := Latch.Phase.latched.inj (hp.symm.trans hj')
      have hnodup := hv.nodup
      rw [hf,hjk] at hnodup
      exact (List.nodup_cons.mp hnodup).1 hrest
    · -- no other vector has the channel
      exact hw (((hfit w b hb).found _ hmem).unique hmine)
  · intro j
    rw [setCall_calling]
    constructor
    · rintro (⟨_,⟨⟩,hj⟩ | ⟨w,b,_,hb,hj⟩)
      · cases hj
        rfl
      · have hj' := (h.calling j).mp ⟨w,b,hb,hj⟩
        rw [hp] at hj'
        contradiction
    · rintro ⟨⟩
      exact Or.inl ⟨_,rfl,rfl⟩

theorem call_shows {dw : Dw} {vs : Vectors} {s : State} {v : ℕ} {i : Invocation} {c : HwChan}
    {k : Irq} {p : Latch.Phase Irq} (hfit : s.Fit dw vs) (h : Shows dw.core s c p)
    (hi : s.calls v = some i) (hc : i.calling = some (c,k)) (again : Bool) :
    Shows dw.core ({ s with
      busy := Function.update s.busy c (s.busy c || again)
      called := Function.update s.called c (Latch.bump (s.called c) k) }.setCall v
        (some { i with calling := none, handled := true, ran := i.ran + 1 })) c
      (if again then .running else .idle) := by
  have hmine : vs.Covers dw v c := (hfit v i hi).calling _ hc
  have hp : p = .taken k := (h.calling k).mp ⟨v,i,hi,hc⟩
  have hbusy : s.busy c = false := by
    by_contra hb
    have hrun := h.busy.mp (by simpa using hb)
    rw [hp] at hrun
    contradiction
  have hnext : ∀ j, (if again then .running else .idle : Latch.Phase Irq) ≠ .latched j ∧
      (if again then .running else .idle : Latch.Phase Irq) ≠ .taken j := by
    intro j
    cases again <;> exact ⟨fun h => by contradiction,fun h => by contradiction⟩
  refine ⟨?_,?_,?_,?_,?_⟩
  · have hstep := Latch.step_balanced h.balanced (.serve k again hp)
    simpa only [State.latch,State.setCall,Function.update_self] using hstep
  · simp only [State.setCall,Function.update_self,hbusy,Bool.false_or]
    cases again <;> simp
  · intro j
    refine ⟨fun hj => ?_,fun hj => absurd hj (hnext j).1⟩
    have hj' := (h.bits j).mp hj
    rw [hp] at hj'
    contradiction
  · intro j hj
    have hs : s.Finds c j := by
      rcases setCall_finds hj with ⟨_,⟨⟩,hmem⟩ | ⟨w,b,_,hb,hmem⟩
      · exact ⟨v,i,hi,hmem⟩
      · exact ⟨w,b,hb,hmem⟩
    have hj' := h.found j hs
    rw [hp] at hj'
    contradiction
  · intro j
    refine ⟨fun hj => ?_,fun hj => absurd hj (hnext j).2⟩
    rcases setCall_calling.mp hj with ⟨_,⟨⟩,hnone⟩ | ⟨w,b,hw,hb,hother⟩
    · contradiction
    · exact absurd (((hfit w b hb).calling _ hother).unique hmine) hw

theorem turn_shows {dw : Dw} {vs : Vectors} {s t : State} {v : ℕ} {i : Invocation} {again : Bool}
    {e : HwChan} {p : Latch.Phase Irq} (hfit : s.Fit dw vs) (h : Shows dw.core s e p)
    (hi : s.calls v = some i) (ht : s.Turn dw vs v i again t) : ∃ p', Shows dw.core t e p' := by
  cases ht with
  | @call c k hc =>
    by_cases he : e = c
    · subst he
      exact ⟨_,call_shows hfit h hi hc again⟩
    · refine ⟨p,h.frame (Function.update_of_ne he ..) rfl (Function.update_of_ne he ..)
        (fun _ => Iff.rfl) ?_ ?_⟩
      · intro j hj
        rcases setCall_finds hj with ⟨_,⟨⟩,hmem⟩ | ⟨w,b,_,hb,hmem⟩
        · exact Or.inl ⟨v,i,hi,hmem⟩
        · exact Or.inl ⟨w,b,hb,hmem⟩
      · intro j
        refine setCall_calling_iff ?_
        simp only [hi,Option.some.injEq,exists_eq_left',hc,reduceCtorEq,Prod.mk.injEq,false_iff]
        exact fun hce => he hce.1.symm
  | @clear c k rest hc hf =>
    by_cases he : e = c
    · subst he
      exact ⟨_,clear_shows hfit h hi hf⟩
    · refine ⟨p,h.frame rfl rfl rfl ?_ ?_ ?_⟩
      · intro j
        simp only [State.setCall]
        rw [clearInt_pending]
        simp [he]
      · intro j hj
        rcases setCall_finds hj with ⟨_,⟨⟩,hmem⟩ | ⟨w,b,_,hb,hmem⟩
        · exact Or.inl ⟨v,i,hi,by rw [hf]; exact List.mem_cons_of_mem _ hmem⟩
        · exact Or.inl ⟨w,b,hb,hmem⟩
      · intro j
        refine setCall_calling_iff ?_
        simp only [hi,Option.some.injEq,exists_eq_left',hc,reduceCtorEq,Prod.mk.injEq,iff_false]
        exact fun hce => he hce.1.symm
  | @read r reads hc hf hr =>
    have hfirst : r ∈ (vs.enter dw v).reads := (hfit v i hi).reads r (by rw [hr]; exact List.mem_cons_self)
    refine ⟨p,h.frame rfl rfl rfl (fun _ => Iff.rfl) ?_ ?_⟩
    · intro j hj
      rcases setCall_finds hj with ⟨_,⟨⟩,hmem⟩ | ⟨w,b,_,hb,hmem⟩
      · exact Or.inr ((found_sound s.word hfirst).2 _ hmem).1
      · exact Or.inl ⟨w,b,hb,hmem⟩
    · intro j
      exact setCall_calling_iff (by simp [hi])
  | leave hc hf =>
    refine ⟨p,h.frame rfl rfl rfl (fun _ => Iff.rfl) ?_ ?_⟩
    · intro j hj
      rcases setCall_finds hj with ⟨_,⟨⟩,_⟩ | ⟨w,b,_,hb,hmem⟩
      exact Or.inl ⟨w,b,hb,hmem⟩
    · intro j
      exact setCall_calling_iff (by simp [hi,hc])

/-- A step is one of the channel's latch, or none. -/
theorem step_shows {dw : Dw} {vs : Vectors} {s t : State} {l : Label} {e : HwChan}
    {p : Latch.Phase Irq} (hfit : s.Fit dw vs) (h : Shows dw.core s e p)
    (he : step dw vs s l = some t) : ∃ p', Shows dw.core t e p' := by
  cases l with
  | raise c k =>
    simp only [step] at he
    split at he <;> cases he
    rename_i hb
    by_cases hec : e = c
    · subst hec
      exact ⟨_,raise_shows h hb k⟩
    · refine ⟨p,h.frame (Function.update_of_ne hec ..) (Function.update_of_ne hec ..) rfl ?_
        (fun _ hf => Or.inl hf) (fun _ => Iff.rfl)⟩
      intro j
      rw [setInt_pending]
      simp [hec]
  | start c =>
    simp only [step] at he
    split at he <;> cases he
    rename_i hg
    obtain ⟨_,hb,hdone,habort⟩ := hg
    by_cases hec : e = c
    · subst hec
      refine ⟨_,start_shows h hb ?_⟩
      intro k
      cases k
      · exact hdone
      · exact habort
    · exact ⟨p,h.frame (Function.update_of_ne hec ..) rfl rfl (fun _ => Iff.rfl)
        (fun _ hf => Or.inl hf) (fun _ => Iff.rfl)⟩
  | irq v =>
    simp only [step] at he
    split at he <;> cases he
    rename_i hv
    refine ⟨p,h.frame rfl rfl rfl (fun _ => Iff.rfl) ?_ ?_⟩
    · intro j hj
      rcases setCall_finds hj with ⟨_,⟨⟩,hmem⟩ | ⟨w,b,_,hb,hmem⟩
      · exact absurd hmem List.not_mem_nil
      · exact Or.inl ⟨w,b,hb,hmem⟩
    · intro j
      exact setCall_calling_iff (by simp [hv,Vectors.enter])
  | run v again =>
    obtain ⟨i,hi,rfl⟩ := Option.map_eq_some_iff.mp he
    exact turn_shows hfit h hi (run_turn dw vs s v i again)

/-- A vector neither clears nor calls back for the channels of others. -/
theorem turn_others {dw : Dw} {vs : Vectors} {s t : State} {v : ℕ} {i : Invocation}
    {again : Bool} {e : HwChan} (hi : i.Fits dw vs v) (ht : s.Turn dw vs v i again t)
    (he : ¬ vs.Covers dw v e) :
    (∀ k, pending dw.core t.word e k = pending dw.core s.word e k) ∧ t.called e = s.called e := by
  cases ht with
  | @call c k hc =>
    have hne : e ≠ c := by
      rintro rfl
      exact he (hi.calling _ hc)
    exact ⟨fun _ => rfl,Function.update_of_ne hne ..⟩
  | @clear c k rest hc hf =>
    have hne : e ≠ c := by
      rintro rfl
      exact he (hi.found (e,k) (by rw [hf]; exact List.mem_cons_self))
    refine ⟨fun j => ?_,rfl⟩
    simp only [State.setCall]
    rw [Bool.eq_iff_iff,clearInt_pending]
    simp [hne]
  | read _ _ _ => exact ⟨fun _ => rfl,rfl⟩
  | leave _ _ => exact ⟨fun _ => rfl,rfl⟩

/-- No interrupt is lost or served twice: the callbacks run and the bits pending are the events
raised, but for the one event whose bit was cleared and whose callback is next. A vector
touches only its channels, and reports exactly whether it ran a callback. -/
theorem interrupts_conserved {dw : Dw} {vs : Vectors} {s : State} {ls : List Label}
    (hr : Runs (step dw vs) free State.init ls s) :
    (∀ c k, ¬ s.Calling c k →
      s.called c k + (pending dw.core s.word c k).toNat = s.raised c k) ∧
    (∀ c k, s.Calling c k →
      s.called c k + 1 = s.raised c k ∧ pending dw.core s.word c k = false) ∧
    (∀ v again t c, step dw vs s (.run v again) = some t → ¬ vs.Covers dw v c →
      (∀ k, pending dw.core t.word c k = pending dw.core s.word c k) ∧
        t.called c = s.called c) ∧
    ∀ v i, s.calls v = some i → (i.handled = true ↔ 0 < i.ran) := by
  obtain ⟨hfit,hshows⟩ : s.Fit dw vs ∧ ∀ c, ∃ p, Shows dw.core s c p := by
    refine hr.invariant (I := fun s => s.Fit dw vs ∧ ∀ c, ∃ p, Shows dw.core s c p) ?_ ?_
    · rintro s l t ⟨hfit,hshows⟩ _ he
      refine ⟨step_fit hfit he,fun c => ?_⟩
      obtain ⟨p,hp⟩ := hshows c
      exact step_shows hfit hp he
    · exact ⟨fun _ _ h => by contradiction,fun c => ⟨_,init_shows dw.core c⟩⟩
  refine ⟨?_,?_,?_,fun v i hi => (hfit v i hi).handled⟩
  · intro c k hk
    obtain ⟨p,hp⟩ := hshows c
    rw [hp.calling] at hk
    have hbal : s.called c k + p.unserved k = s.raised c k := hp.balanced k
    rw [← hbal]
    congr 1
    by_cases hb : pending dw.core s.word c k = true
    · rw [hb,(hp.bits k).mp hb,Latch.unserved_latched]
      rfl
    · rw [Latch.unserved_zero (fun h => hb ((hp.bits k).mpr h)) hk,Bool.eq_false_iff.mpr hb]
      rfl
  · intro c k hk
    obtain ⟨p,hp⟩ := hshows c
    have htaken := (hp.calling k).mp hk
    refine ⟨?_,?_⟩
    · have hbal : s.called c k + p.unserved k = s.raised c k := hp.balanced k
      rw [htaken,Latch.unserved_taken] at hbal
      exact hbal
    · by_contra hb
      have hlatched := (hp.bits k).mp (by simpa using hb)
      rw [htaken] at hlatched
      contradiction
  · intro v again t c he hc
    obtain ⟨i,hi,rfl⟩ := Option.map_eq_some_iff.mp he
    exact turn_others (hfit v i hi) (run_turn dw vs s v i again) hc

/-! ## The vectors that probing sets up -/

/-- `pos` of `dw_edma_channel_setup`. -/
def irqPos (nrIrqs wrAlloc rdAlloc : ℕ) : Dir → ℕ → ℕ
  | .write, id => if nrIrqs = 1 then 0 else id % wrAlloc
  | .read, id => if nrIrqs = 1 then 0 else wrAlloc + id % rdAlloc

/-- The channel bits that `dw_edma_channel_setup` sets in a mask of `dw->irq[v]`. -/
def Dw.setupMask (dw : Dw) (pos : Dir → ℕ → ℕ) (v : ℕ) (dir : Dir) : Word :=
  ((List.range (dw.total dir)).filter fun id => pos dir id = v).foldl
    (fun mask id => mask ||| bit id) 0#32

theorem foldl_bit_getLsbD (ids : List ℕ) (mask : Word) {i : ℕ} (hi : i < 32) :
    (ids.foldl (fun mask id => mask ||| bit id) mask).getLsbD i =
      (mask.getLsbD i || decide (i ∈ ids)) := by
  induction ids generalizing mask with
  | nil => simp
  | cons id ids ih =>
    have hbit : (bit id).getLsbD i = decide (i = id) := by
      unfold bit
      rw [Bool.eq_iff_iff]
      simp
      omega
    rw [List.foldl_cons,ih,BitVec.getLsbD_or,hbit,Bool.or_assoc]
    simp [List.mem_cons]

theorem setupMask_getLsbD (dw : Dw) (pos : Dir → ℕ → ℕ) (v : ℕ) (dir : Dir) {i : ℕ} :
    ((dw.setupMask pos v dir).getLsbD i = true ↔ i < dw.total dir ∧ pos dir i = v) := by
  have htotal : dw.total dir ≤ 8 := by
    cases dir
    · exact dw.wr_le
    · exact dw.rd_le
  by_cases hi : i < 32
  · rw [Dw.setupMask,foldl_bit_getLsbD _ _ hi]
    simp
  · rw [BitVec.getLsbD_of_ge _ _ (by omega)]
    simp
    omega

/-- `dw->irq` after `dw_edma_irq_request` and `dw_edma_channel_setup`. -/
def Dw.vectors (dw : Dw) (nrIrqs wrAlloc rdAlloc : ℕ) : Vectors where
  handler v := if nrIrqs = 1 then .common else if v < wrAlloc then .write else .read
  irq v := ⟨dw.setupMask (irqPos nrIrqs wrAlloc rdAlloc) v .write,
    dw.setupMask (irqPos nrIrqs wrAlloc rdAlloc) v .read⟩
  disjoint v w dir i hv hw := by
    cases dir <;> simp only [DwIrq.mask,setupMask_getLsbD] at hv hw <;> exact hv.2.symm.trans hw.2

theorem vectors_mask (dw : Dw) (nrIrqs wrAlloc rdAlloc v : ℕ) (dir : Dir) :
    ((dw.vectors nrIrqs wrAlloc rdAlloc).irq v).mask dir =
      dw.setupMask (irqPos nrIrqs wrAlloc rdAlloc) v dir := by
  cases dir <;> rfl

/-- Every channel has a vector, and only one. -/
theorem vectors_cover {dw : Dw} {nrIrqs wrAlloc rdAlloc : ℕ} {c : HwChan}
    (hc : c.2.val < dw.total c.1) (h : nrIrqs = 1 ∨ c.1 = .read ∨ 0 < wrAlloc) :
    ∃! v, (dw.vectors nrIrqs wrAlloc rdAlloc).Covers dw v c := by
  refine ⟨irqPos nrIrqs wrAlloc rdAlloc c.1 c.2,⟨?_,hc,?_⟩,fun w hw => ?_⟩
  · by_cases hone : nrIrqs = 1
    · simp only [Dw.vectors,if_pos hone]
      cases c.1 <;> decide
    · cases hdir : c.1 with
      | write =>
        have hpos : 0 < wrAlloc := by simpa [hone,hdir] using h
        simp [Dw.vectors,irqPos,hone,Nat.mod_lt _ hpos,Handler.dirs]
      | read => simp [Dw.vectors,irqPos,hone,Handler.dirs]
  · rw [vectors_mask,setupMask_getLsbD]
    exact ⟨hc,rfl⟩
  · have hmask := hw.2.2
    rw [vectors_mask,setupMask_getLsbD] at hmask
    exact hmask.2.symm

/-- Two channels for each direction. -/
def twoByTwo (core : Core) : Dw := ⟨core,2,2,by decide,by decide⟩

/-- Under the HDMA core: the chunk of another channel is aborted while the handler runs, and
the next one, started by its callback, ends behind the read of its channel. -/
def restartedHdma (c e : HwChan) : List Label :=
  [.start c,.start e,.raise e .done,.irq 0,.run 0 false,.raise c .abort,.run 0 false,.run 0 false,
    .run 0 true,.raise c .done,.run 0 false,.run 0 false,.run 0 false]

/-- The chunk of a channel ends while the handler runs, and the next one, started by its
callback, is aborted before the second read. -/
theorem restarted_conserved : (∃ s,
    exec (step (twoByTwo .edmaV0) ((twoByTwo .edmaV0).vectors 1 0 0)) State.init
      [.start (.write,0),.irq 0,.raise (.write,0) .done,.run 0 false,.run 0 false,.run 0 true,
        .raise (.write,0) .abort] = some s ∧
    s.called (.write,0) .done = 1 ∧ s.called (.write,0) .abort = 0 ∧
    s.called (.write,0) .abort + (pending .edmaV0 s.word (.write,0) .abort).toNat =
      s.raised (.write,0) .abort) ∧
    ∃ s, exec (step (twoByTwo .hdmaV0) ((twoByTwo .hdmaV0).vectors 1 0 0)) State.init
      (restartedHdma (.write,1) (.read,0)) = some s ∧
    s.called (.write,1) .abort = 1 ∧ s.called (.read,0) .done = 1 ∧
    s.called (.write,1) .done = 0 ∧ s.raised (.write,1) .done = 1 ∧
    s.called (.write,1) .done + (pending .hdmaV0 s.word (.write,1) .done).toNat =
      s.raised (.write,1) .done := by
  have hex : exec (step (twoByTwo .edmaV0) ((twoByTwo .edmaV0).vectors 1 0 0)) State.init
    [.start (.write,0),.irq 0,.raise (.write,0) .done,.run 0 false,.run 0 false,.run 0 true,
      .raise (.write,0) .abort] = some _ := rfl
  have hex' : exec (step (twoByTwo .hdmaV0) ((twoByTwo .hdmaV0).vectors 1 0 0)) State.init
    (restartedHdma (.write,1) (.read,0)) = some _ := rfl
  have hr := runs_of_exec (guarded_free _ _) hex
  have hr' := runs_of_exec (guarded_free _ _) hex'
  refine ⟨⟨_,hex,rfl,rfl,(interrupts_conserved hr).1 (.write,0) .abort ?_⟩,
    _,hex',rfl,rfl,rfl,rfl,(interrupts_conserved hr').1 (.write,1) .done ?_⟩
  all_goals
    rintro ⟨v,i,hi,hcalling⟩
    cases v with
    | zero =>
      cases hi
      contradiction
    | succ v => contradiction

end AkidaEdma.HandleInt
