import Mathlib.Data.Nat.Notation
import Mathlib.Logic.Function.Basic

/-! # A source of events behind a latch

A source that works ends by raising one event of some kind. The event is latched until a
handler clears the latch and then serves it, and only then, or from the service itself, does
the source work again. No event is lost: each one is served, or else latched or taken.
-/
namespace AkidaEdma.Latch
variable {κ : Type*}

inductive Phase (κ : Type*)
  | idle
  | running
  | latched (k : κ)
  | taken (k : κ)
  deriving DecidableEq

/-- A source, with the events that it has raised and those that were served. -/
structure State (κ : Type*) where
  phase : Phase κ
  raised : κ → ℕ
  served : κ → ℕ

/-- One more of a kind. -/
def bump [DecidableEq κ] (f : κ → ℕ) (k : κ) : κ → ℕ := Function.update f k (f k + 1)

inductive Step [DecidableEq κ] (s : State κ) : State κ → Prop
  | start (h : s.phase = .idle) : Step s { s with phase := .running }
  | raise (k : κ) (h : s.phase = .running) :
      Step s { s with phase := .latched k, raised := bump s.raised k }
  | clear (k : κ) (h : s.phase = .latched k) : Step s { s with phase := .taken k }
  | serve (k : κ) (again : Bool) (h : s.phase = .taken k) :
      Step s ⟨if again then .running else .idle,s.raised,bump s.served k⟩

variable [DecidableEq κ]

theorem bump_apply (f : κ → ℕ) (k j : κ) : bump f k j = f j + if j = k then 1 else 0 := by
  unfold bump
  rw [Function.update_apply]
  split
  · rename_i h
    rw [h]
  · rfl

/-- The events of a kind that wait for their service. -/
def Phase.unserved (k : κ) : Phase κ → ℕ
  | .latched j => if k = j then 1 else 0
  | .taken j => if k = j then 1 else 0
  | _ => 0

@[simp] theorem unserved_latched (k : κ) : (Phase.latched k).unserved k = 1 := if_pos rfl
@[simp] theorem unserved_taken (k : κ) : (Phase.taken k).unserved k = 1 := if_pos rfl

theorem unserved_zero {k : κ} {p : Phase κ} (hl : p ≠ .latched k) (ht : p ≠ .taken k) :
    p.unserved k = 0 := by
  cases p with
  | idle => rfl
  | running => rfl
  | latched j => exact if_neg fun h => hl (by rw [h])
  | taken j => exact if_neg fun h => ht (by rw [h])

def Balanced (s : State κ) : Prop := ∀ k, s.served k + s.phase.unserved k = s.raised k

theorem step_balanced {s t : State κ} (h : Balanced s) (hs : Step s t) : Balanced t := by
  intro j
  have hj := h j
  cases hs with
  | start hp => simpa [hp,Phase.unserved] using hj
  | raise k hp =>
    simp only [hp,Phase.unserved] at hj
    simp only [Phase.unserved,bump_apply]
    omega
  | clear k hp => simpa [hp,Phase.unserved] using hj
  | serve k again hp =>
    simp only [hp,Phase.unserved] at hj
    have hidle : Phase.unserved j (if again then .running else .idle : Phase κ) = 0 := by
      cases again <;> rfl
    simp only [bump_apply,hidle]
    omega

/-- A source that does not work and has nothing to be served is idle. -/
theorem Balanced.idle {s : State κ} (h : Balanced s) (hp : s.phase ≠ .running)
    (heq : ∀ k, s.raised k = s.served k) : s.phase = .idle := by
  cases hphase : s.phase with
  | idle => rfl
  | running => exact absurd hphase hp
  | latched k =>
    have hk := h k
    simp only [hphase,unserved_latched,heq] at hk
    omega
  | taken k =>
    have hk := h k
    simp only [hphase,unserved_taken,heq] at hk
    omega

end AkidaEdma.Latch
