import AkidaEdma.Library.Transition
import Mathlib.Logic.Relation

/-! # A shared word updated by reading and writing back

Agents share one word. Each has an update of it that establishes a condition of its own,
and carries it out in two moves: it reads the word, and later writes the updated value
back. The conditions of the agents that have written are safe as long as every write finds
the word as it was read; the first write that does not undoes somebody's update.
-/
namespace AkidaEdma.ReadModifyWrite
open Transition Relation
variable {ι V : Type*}

structure Updates (f : ι → V → V) (ok : ι → V → Prop) : Prop where
  establish : ∀ i v, ok i (f i v)
  keep : ∀ i j v, ok j v → ok j (f i v)
  own : ∀ i j v, j ≠ i → ok j (f i v) → ok j v
  absorb : ∀ i v, ok i v → f i v = v

/-- `held` is what an agent between its two moves has read. -/
structure State (ι V : Type*) where
  word : V
  held : ι → Option V
  updated : ι → Bool

inductive Act (ι : Type*)
  | read (i : ι)
  | write (i : ι)

def step [DecidableEq ι] (f : ι → V → V) (s : State ι V) : Act ι → Option (State ι V)
  | .read i => some { s with held := fun j => if j = i then some s.word else s.held j }
  | .write i => (s.held i).map fun v =>
      { word := f i v
        held := fun j => if j = i then none else s.held j
        updated := fun j => if j = i then true else s.updated j }

/-- A write finds the word as it was read. -/
def Fresh (s : State ι V) : Act ι → Prop
  | .read _ => True
  | .write i => ∀ v, s.held i = some v → v = s.word

/-- `w` comes from `v` by updates. -/
def Later (f : ι → V → V) : V → V → Prop := ReflTransGen fun v w => ∃ i, w = f i v

theorem later_update (f : ι → V → V) (i : ι) (v : V) : Later f v (f i v) := .single ⟨i,rfl⟩

variable {f : ι → V → V} {ok : ι → V → Prop}

theorem later_keeps (hf : Updates f ok) {v w : V} (h : Later f v w) {j : ι} (hj : ok j v) : ok j w := by
  induction h with
  | refl => exact hj
  | tail _ hstep ih =>
    obtain ⟨i,rfl⟩ := hstep
    exact hf.keep i j _ ih

/-- Between different words some update was made that was not there before. -/
theorem later_eq_or_new (hf : Updates f ok) {v w : V} (h : Later f v w) :
    v = w ∨ ∃ j, ok j w ∧ ¬ ok j v := by
  induction h with
  | refl => exact Or.inl rfl
  | @tail u w hvu hstep ih =>
    obtain ⟨i,rfl⟩ := hstep
    have hlater : Later f v u := hvu
    by_cases hi : ok i u
    · rw [hf.absorb i u hi]
      exact ih
    · exact Or.inr ⟨i,hf.establish i u,fun hv => hi (later_keeps hf hlater hv)⟩

/-- The invariant, from the first word `v₀`. -/
structure Inv (f : ι → V → V) (ok : ι → V → Prop) (v₀ : V) (s : State ι V) : Prop where
  later : Later f v₀ s.word
  held : ∀ i v, s.held i = some v → Later f v₀ v ∧ Later f v s.word ∧ (s.updated i = true → ok i v)
  updated : ∀ i, s.updated i = true → ok i s.word
  only : ∀ i, ok i s.word → ok i v₀ ∨ s.updated i = true

theorem inv_init (v₀ : V) : Inv f ok v₀ ⟨v₀,fun _ => none,fun _ => false⟩ where
  later := .refl
  held _ _ h := by contradiction
  updated _ h := by contradiction
  only _ h := Or.inl h

variable [DecidableEq ι]

theorem inv_read {v₀ : V} {s : State ι V} (h : Inv f ok v₀ s) (i : ι) :
    Inv f ok v₀ { s with held := fun j => if j = i then some s.word else s.held j } := by
  refine ⟨h.later,?_,h.updated,h.only⟩
  intro j v hv
  dsimp only at hv
  split at hv
  · cases hv
    exact ⟨h.later,.refl,h.updated j⟩
  · exact h.held j v hv

theorem inv_write (hf : Updates f ok) {v₀ : V} {s : State ι V} (h : Inv f ok v₀ s) (i : ι) :
    Inv f ok v₀
      { word := f i s.word
        held := fun j => if j = i then none else s.held j
        updated := fun j => if j = i then true else s.updated j } := by
  refine ⟨h.later.trans (later_update f i _),?_,?_,?_⟩
  · intro j v hv
    dsimp only at hv
    split at hv
    · contradiction
    · rename_i hj
      obtain ⟨h0,hw,hu⟩ := h.held j v hv
      exact ⟨h0,hw.trans (later_update f i _),by simpa [hj] using hu⟩
  · intro j hj
    dsimp only at hj
    split at hj
    · rename_i hji
      rw [hji]
      exact hf.establish i _
    · exact hf.keep i j _ (h.updated j hj)
  · intro j hj
    dsimp only at hj ⊢
    by_cases hji : j = i
    · rw [if_pos hji]
      exact Or.inr rfl
    · rw [if_neg hji]
      exact h.only j (hf.own i j _ hji hj)

theorem step_inv (hf : Updates f ok) {v₀ : V} {s t : State ι V} {a : Act ι} (h : Inv f ok v₀ s)
    (hg : Fresh s a) (he : step f s a = some t) : Inv f ok v₀ t := by
  cases a with
  | read i => cases he; exact inv_read h i
  | write i =>
    obtain ⟨v,hv,rfl⟩ := Option.map_eq_some_iff.mp he
    rw [hg v hv]
    exact inv_write hf h i

omit [DecidableEq ι] in
/-- A write that does not find the word as it was read undoes an update. -/
theorem stale_write_undoes (hf : Updates f ok) {v₀ : V} {s : State ι V} (h : Inv f ok v₀ s) {i : ι}
    {v : V} (hv : s.held i = some v) (hne : v ≠ s.word) :
    ∃ j, j ≠ i ∧ s.updated j = true ∧ ¬ ok j (f i v) := by
  obtain ⟨h0,hw,hu⟩ := h.held i v hv
  obtain ⟨j,hj,hnot⟩ := (later_eq_or_new hf hw).resolve_left hne
  have hupd : s.updated j = true := (h.only j hj).resolve_left (fun hv₀ => hnot (later_keeps hf h0 hv₀))
  have hji : j ≠ i := by
    rintro rfl
    exact hnot (hu hupd)
  exact ⟨j,hji,hupd,fun hk => hnot (hf.own i j v hji hk)⟩

end AkidaEdma.ReadModifyWrite
