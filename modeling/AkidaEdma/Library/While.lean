import Mathlib.Data.Nat.Notation

/-! # Loops that need not end

A loop with a bound on its rounds. It has a result exactly where the loop ends within the
bound, and a larger bound changes nothing.
-/
namespace AkidaEdma.While
variable {S : Type*}

/-- `while (cond) body`, in at most `n` rounds. -/
def run (cond : S → Bool) (body : S → S) : ℕ → S → Option S
  | 0, s => if cond s then none else some s
  | n+1, s => if cond s then run cond body n (body s) else some s

variable {cond : S → Bool} {body : S → S}

theorem run_done {s : S} (h : cond s = false) (n : ℕ) : run cond body n s = some s := by
  cases n <;> simp [run,h]

theorem run_stuck {s : S} (h : cond s = true) : run cond body 0 s = none := by simp [run,h]

theorem run_round {s : S} (h : cond s = true) (n : ℕ) :
    run cond body (n+1) s = run cond body n (body s) := by simp [run,h]

theorem run_mono {n m : ℕ} {s t : S} (hnm : n ≤ m) (h : run cond body n s = some t) :
    run cond body m s = some t := by
  induction n generalizing s m with
  | zero =>
    cases hc : cond s with
    | true =>
      rw [run_stuck hc] at h
      contradiction
    | false =>
      rw [run_done hc] at h ⊢
      exact h
  | succ n ih =>
    cases hc : cond s with
    | true =>
      obtain ⟨k,rfl⟩ := Nat.exists_eq_add_of_le' (show 1 ≤ m by omega)
      rw [run_round hc] at h ⊢
      exact ih (by omega) h
    | false =>
      rw [run_done hc] at h ⊢
      exact h

/-- The invariant holds at the end, where the condition fails. -/
theorem run_invariant {I : S → Prop} (hI : ∀ s, I s → cond s = true → I (body s)) {n : ℕ}
    {s t : S} (hs : I s) (h : run cond body n s = some t) : I t ∧ cond t = false := by
  induction n generalizing s with
  | zero =>
    cases hc : cond s with
    | true =>
      rw [run_stuck hc] at h
      contradiction
    | false =>
      rw [run_done hc] at h
      cases h
      exact ⟨hs,hc⟩
  | succ n ih =>
    cases hc : cond s with
    | true =>
      rw [run_round hc] at h
      exact ih (hI s hs hc) h
    | false =>
      rw [run_done hc] at h
      cases h
      exact ⟨hs,hc⟩

/-- A loop whose rounds lower a measure ends. -/
theorem run_ends {I : S → Prop} (hI : ∀ s, I s → cond s = true → I (body s)) (μ : S → ℕ)
    (hμ : ∀ s, I s → cond s = true → μ (body s) < μ s) {s : S} (hs : I s) {n : ℕ} (hn : μ s ≤ n) :
    ∃ t, run cond body n s = some t := by
  induction n generalizing s with
  | zero =>
    cases hc : cond s with
    | true =>
      have hlt := hμ s hs hc
      omega
    | false => exact ⟨s,run_done hc 0⟩
  | succ n ih =>
    cases hc : cond s with
    | true =>
      have hlt := hμ s hs hc
      rw [run_round hc]
      exact ih (hI s hs hc) (by omega)
    | false => exact ⟨s,run_done hc _⟩

end AkidaEdma.While
