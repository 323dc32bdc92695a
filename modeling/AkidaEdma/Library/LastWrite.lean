import Mathlib.Data.List.Induction
import Mathlib.Logic.Basic

/-! # The last of the events at a key

Events come one by one, each at a key. What an event establishes and no event at another key
undoes holds of the last event at a key after any run.
-/
namespace AkidaEdma.LastWrite
variable {σ ε κ V : Type*} [DecidableEq κ]

def last (key : ε → κ) (k : κ) (es : List ε) : Option ε := (es.filter (key · = k)).getLast?

theorem last_snoc (key : ε → κ) (k : κ) (es : List ε) (e : ε) :
    last key k (es ++ [e]) = if key e = k then some e else last key k es := by
  unfold last
  rw [List.filter_append]
  split <;> rename_i h
  · rw [List.filter_cons_of_pos (by simpa using h),List.filter_nil,List.getLast?_concat]
  · rw [List.filter_cons_of_neg (by simpa using h),List.filter_nil,List.append_nil]

theorem last_mem {key : ε → κ} {k : κ} {es : List ε} {e : ε} (h : last key k es = some e) :
    e ∈ es ∧ key e = k := by
  simpa using List.mem_filter.mp (List.mem_of_getLast? h)

/-- An event that is `ok` establishes `P`, and those at other keys keep it. -/
structure Establishes (step : σ → ε → σ) (key : ε → κ) (ok : ε → Prop) (P : ε → σ → Prop) :
    Prop where
  own : ∀ s e, ok e → P e (step s e)
  keep : ∀ s e f, ok e → ok f → key f ≠ key e → P e s → P e (step s f)

variable {step : σ → ε → σ} {key : ε → κ} {ok : ε → Prop} {P : ε → σ → Prop}

theorem Establishes.run (h : Establishes step key ok P) {k : κ} (s : σ) {es : List ε}
    (hok : ∀ e ∈ es, ok e) {e : ε} (he : last key k es = some e) : P e (es.foldl step s) := by
  induction es using List.reverseRecOn with
  | nil => simp [last] at he
  | append_singleton es f ih =>
    have hf : ok f := hok f (by simp)
    have hes : ∀ e ∈ es, ok e := fun e hmem => hok e (List.mem_append_left _ hmem)
    rw [last_snoc] at he
    rw [List.foldl_append,List.foldl_cons,List.foldl_nil]
    split at he <;> rename_i hkey
    · cases he
      exact h.own _ _ hf
    · obtain ⟨hmem,hk⟩ := last_mem he
      exact h.keep _ e f (hes e hmem) hf (by rwa [hk]) (ih hes he)

/-- What events at other keys leave alone is left alone. -/
theorem untouched (view : σ → V) {k : κ} (hkeep : ∀ s e, key e ≠ k → view (step s e) = view s)
    (s : σ) {es : List ε} (hnone : last key k es = none) : view (es.foldl step s) = view s := by
  induction es using List.reverseRecOn with
  | nil => rfl
  | append_singleton es f ih =>
    rw [last_snoc] at hnone
    rw [List.foldl_append,List.foldl_cons,List.foldl_nil]
    split at hnone <;> rename_i hkey
    · contradiction
    · rw [hkeep _ f hkey,ih hnone]

end AkidaEdma.LastWrite
