import Mathlib.Data.List.Basic

/-! # Runs of a labelled partial step function

A system is a function `step : S → L → Option S`: a label names the party that
moves and resolves every choice it has, and `none` means that the label is not
enabled. A run may be restricted by a guard on each of its steps; the guard is
evaluated in the state before the step.
-/
namespace AkidaEdma.Transition
variable {S L : Type*}

/-- A finite run whose every step satisfies `guard`. -/
inductive Runs (step : S → L → Option S) (guard : S → L → Prop) : S → List L → S → Prop
  | refl (s : S) : Runs step guard s [] s
  | step {s t u : S} {l : L} {ls : List L} (hg : guard s l) (he : step s l = some t)
      (hr : Runs step guard t ls u) : Runs step guard s (l :: ls) u

/-- The guard of a run without restriction. -/
def free (_ : S) (_ : L) : Prop := True

/-- Some run of guarded steps leads from `s` to `t`. -/
def Reaches (step : S → L → Option S) (guard : S → L → Prop) (s t : S) : Prop :=
  ∃ ls, Runs step guard s ls t

variable {step : S → L → Option S} {guard : S → L → Prop}

theorem Runs.single {s t : S} {l : L} (hg : guard s l) (he : step s l = some t) :
    Runs step guard s [l] t := .step hg he (.refl t)

theorem Runs.append {s t u : S} {ls ks : List L} (hr : Runs step guard s ls t)
    (hk : Runs step guard t ks u) : Runs step guard s (ls ++ ks) u := by
  induction hr with
  | refl => exact hk
  | step hg he _ ih => exact .step hg he (ih hk)

theorem Runs.mono {guard' : S → L → Prop} (hgg : ∀ s l, guard s l → guard' s l)
    {s t : S} {ls : List L} (hr : Runs step guard s ls t) : Runs step guard' s ls t := by
  induction hr with
  | refl => exact .refl _
  | step hg he _ ih => exact .step (hgg _ _ hg) he ih

/-- What every guarded step preserves, every guarded run preserves. -/
theorem Runs.invariant {I : S → Prop}
    (hI : ∀ s l t, I s → guard s l → step s l = some t → I t)
    {s t : S} {ls : List L} (hr : Runs step guard s ls t) (hs : I s) : I t := by
  induction hr with
  | refl => exact hs
  | step hg he _ ih => exact ih (hI _ _ _ hs hg he)

/-- The same for a relation between the first and the last state. -/
theorem Runs.related {R : S → S → Prop} (hrefl : ∀ s, R s s)
    (htrans : ∀ s t u, R s t → R t u → R s u)
    (hR : ∀ s l t, guard s l → step s l = some t → R s t)
    {s t : S} {ls : List L} (hr : Runs step guard s ls t) : R s t := by
  induction hr with
  | refl => exact hrefl _
  | step hg he _ ih => exact htrans _ _ _ (hR _ _ _ hg he) ih

/-- A measure that the steps of one kind lower by one, as long as it is positive, and the others
leave alone. -/
theorem Runs.countdown {I : S → Prop} {μ : S → ℕ} {counts : L → Bool}
    (hI : ∀ s l t, I s → guard s l → step s l = some t → I t ∧ μ t = μ s - (counts l).toNat)
    {s t : S} {ls : List L} (hr : Runs step guard s ls t) (hs : I s) :
    I t ∧ μ t = μ s - ls.countP counts := by
  induction hr with
  | refl => exact ⟨hs,rfl⟩
  | @step s m u l ls hg he _ ih =>
    obtain ⟨hm,hμ⟩ := hI _ _ _ hs hg he
    obtain ⟨hu,hrest⟩ := ih hm
    refine ⟨hu,?_⟩
    have hcount : (l :: ls).countP counts = ls.countP counts + (counts l).toNat := by
      rw [List.countP_cons]
      cases counts l <;> rfl
    rw [hrest,hμ,hcount,Nat.sub_sub,Nat.add_comm]

/-- The run passes through `u`. -/
def Passes (step : S → L → Option S) (guard : S → L → Prop) (s : S) (ls : List L) (t u : S) :
    Prop :=
  ∃ before after, ls = before ++ after ∧ Runs step guard s before u ∧ Runs step guard u after t

/-- The same for a property that refers to the states of the run. -/
theorem Runs.passing {s t : S} {ls : List L} {I : S → Prop} (hr : Runs step guard s ls t)
    (hI : ∀ u l v, Passes step guard s ls t u → Passes step guard s ls t v → I u → guard u l →
      step u l = some v → I v) (hs : I s) : I t := by
  have hfrom : ∀ {u : S} {after : List L}, Runs step guard u after t → ∀ before,
      ls = before ++ after → Runs step guard s before u → I u → I t := by
    intro u after hu
    induction hu with
    | refl => exact fun _ _ _ h => h
    | @step u v t l after hg he hv ih =>
      intro before hls hb hu
      have hnext := hb.append (.single hg he)
      have hsplit : ls = (before ++ [l]) ++ after := by rw [hls,List.append_assoc]; rfl
      exact ih hr hI (before ++ [l]) hsplit hnext
        (hI u l v ⟨before,l :: after,hls,hb,.step hg he hv⟩ ⟨_,after,hsplit,hnext,hv⟩ hu hg he)
  exact hfrom hr [] rfl (.refl s) hs

theorem Reaches.refl (s : S) : Reaches step guard s s := ⟨[],.refl s⟩

theorem Reaches.trans {s t u : S} (hs : Reaches step guard s t) (ht : Reaches step guard t u) :
    Reaches step guard s u := by
  obtain ⟨ls,hs⟩ := hs
  obtain ⟨ks,ht⟩ := ht
  exact ⟨ls ++ ks,hs.append ht⟩

theorem Reaches.single {s t : S} {l : L} (hg : guard s l) (he : step s l = some t) :
    Reaches step guard s t := ⟨[l],.single hg he⟩

theorem Reaches.invariant {I : S → Prop}
    (hI : ∀ s l t, I s → guard s l → step s l = some t → I t)
    {s t : S} (hr : Reaches step guard s t) (hs : I s) : I t := by
  obtain ⟨ls,hr⟩ := hr
  exact hr.invariant hI hs

/-- Steps that are steps of another system under `p`, or do not move it, make its runs. -/
theorem Runs.simulate {S' L' : Type*} {step' : S' → L' → Option S'} {guard' : S' → L' → Prop}
    (p : S → S') (h : ∀ s l t, guard s l → step s l = some t →
      p t = p s ∨ ∃ l', guard' (p s) l' ∧ step' (p s) l' = some (p t))
    {s t : S} {ls : List L} (hr : Runs step guard s ls t) : Reaches step' guard' (p s) (p t) := by
  induction hr with
  | refl => exact .refl _
  | step hg he _ ih =>
    rcases h _ _ _ hg he with hstutter | ⟨l',hg',he'⟩
    · rw [← hstutter]
      exact ih
    · exact (Reaches.single hg' he').trans ih

/-- Execution of a fixed list of labels, for concrete runs. -/
def exec (step : S → L → Option S) : S → List L → Option S
  | s, [] => some s
  | s, l :: ls => (step s l).bind (fun t => exec step t ls)

/-- Execution that stops at a step whose guard fails. -/
def check (step : S → L → Option S) (guard : S → L → Prop) [∀ s l, Decidable (guard s l)] :
    S → List L → Option S
  | s, [] => some s
  | s, l :: ls => if guard s l then (step s l).bind (fun t => check step guard t ls) else none

theorem runs_of_check [∀ s l, Decidable (guard s l)] {s t : S} {ls : List L}
    (h : check step guard s ls = some t) : Runs step guard s ls t := by
  induction ls generalizing s with
  | nil => cases h; exact .refl _
  | cons l ls ih =>
    simp only [check] at h
    split at h
    · rename_i hg
      obtain ⟨m,hm,h⟩ := Option.bind_eq_some_iff.mp h
      exact .step hg hm (ih h)
    · contradiction

/-- The guard holds at every step that execution takes. -/
def Guarded (step : S → L → Option S) (guard : S → L → Prop) : S → List L → Prop
  | _, [] => True
  | s, l :: ls => guard s l ∧ ∀ t, step s l = some t → Guarded step guard t ls

theorem runs_of_exec {s t : S} {ls : List L} (hg : Guarded step guard s ls)
    (he : exec step s ls = some t) : Runs step guard s ls t := by
  induction ls generalizing s with
  | nil => cases he; exact .refl _
  | cons l ls ih =>
    obtain ⟨hl,hrest⟩ := hg
    obtain ⟨m,hm,he⟩ := Option.bind_eq_some_iff.mp he
    exact .step hl hm (ih (hrest m hm) he)

theorem guarded_of_forall {ls : List L} (h : ∀ s, ∀ l ∈ ls, guard s l) (s : S) :
    Guarded step guard s ls := by
  induction ls generalizing s with
  | nil => trivial
  | cons l ls ih =>
    have hls : ∀ s, ∀ k ∈ ls, guard s k := fun s k hk => h s k (List.mem_cons_of_mem l hk)
    exact ⟨h s l List.mem_cons_self,fun t _ => ih hls t⟩

theorem guarded_cons {s t : S} {l : L} {ls : List L} (hg : guard s l) (he : step s l = some t)
    (h : Guarded step guard t ls) : Guarded step guard s (l :: ls) :=
  ⟨hg,fun _ hu => Option.some.inj (he.symm.trans hu) ▸ h⟩

theorem guarded_free (s : S) (ls : List L) : Guarded step free s ls :=
  guarded_of_forall (fun _ _ _ => trivial) s

/-- `P` holds in every state an execution passes through, its first included. -/
def Along (step : S → L → Option S) (P : S → Prop) : S → List L → Prop
  | s, [] => P s
  | s, l :: ls => P s ∧ ∀ t, step s l = some t → Along step P t ls

/-- A safety property that fails in the state after a step exactly when the step
violates `good` holds along a run exactly when every step is good. -/
theorem along_iff_guarded {P I : S → Prop} {good : S → L → Prop}
    (hP : ∀ s, I s → P s)
    (hI : ∀ s l t, I s → guard s l → good s l → step s l = some t → I t)
    (hbad : ∀ s l t, I s → guard s l → step s l = some t → P t → good s l)
    {s u : S} {ls : List L} (hr : Runs step guard s ls u) (hs : I s) :
    Along step P s ls ↔ Guarded step good s ls := by
  induction hr with
  | refl => exact ⟨fun _ => trivial,fun _ => hP _ hs⟩
  | @step s t u l ls hg he hr ih =>
    have hfirst : ∀ t', step s l = some t' → t' = t := by
      intro t' ht'
      exact Option.some.inj (ht'.symm.trans he)
    constructor
    · rintro ⟨_,ha⟩
      have hat := ha t he
      have hPt : P t := by cases ls <;> first | exact hat | exact hat.1
      have hgood := hbad s l t hs hg he hPt
      refine ⟨hgood,fun t' ht' => ?_⟩
      rw [hfirst t' ht']
      exact (ih (hI s l t hs hg hgood he)).mp hat
    · rintro ⟨hgood,hrest⟩
      refine ⟨hP s hs,fun t' ht' => ?_⟩
      rw [hfirst t' ht']
      exact (ih (hI s l t hs hg hgood he)).mpr (hrest t he)

end AkidaEdma.Transition
