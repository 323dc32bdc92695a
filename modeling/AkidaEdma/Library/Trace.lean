import Mathlib.Data.List.Basic

/-! # Properties of a history

A condition on every event of a history, given what came before it. A history only grows
at its end, so the condition is kept by checking each new event once.
-/
namespace AkidaEdma.Trace
variable {E : Type*}

def Always (P : List E → E → Prop) (log : List E) : Prop :=
  ∀ l e r, log = l ++ e :: r → P l e

theorem always_nil (P : List E → E → Prop) : Always P [] := by
  intro l e r h
  exact absurd h.symm (List.append_ne_nil_of_right_ne_nil l (List.cons_ne_nil e r))

theorem Always.concat {P : List E → E → Prop} {log : List E} {e : E} (h : Always P log)
    (he : P log e) : Always P (log ++ [e]) := by
  intro l e' r heq
  rcases List.eq_nil_or_concat r with rfl | ⟨r',f,rfl⟩
  · obtain ⟨rfl,hee⟩ := List.append_inj' heq rfl
    obtain ⟨rfl,_⟩ := List.cons.inj hee
    exact he
  · rw [List.concat_eq_append,← List.cons_append,← List.append_assoc] at heq
    obtain ⟨rfl,_⟩ := List.append_inj' heq rfl
    exact h l e' r' rfl

end AkidaEdma.Trace
