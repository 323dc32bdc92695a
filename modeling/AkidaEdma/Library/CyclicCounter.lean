import Mathlib.Data.Nat.ModEq

/-! # Counters that go round

The values of a counter run from `1` to `p` and then begin again. From three of them, a
window shorter than a period, it can be told which comes later.
-/
namespace AkidaEdma.CyclicCounter

/-- The value after `n` steps from `1`. -/
def value (p n : ℕ) : ℕ := n % p + 1

/-- From `u` on, `v` comes up no later than `w`, and is not `u` itself. -/
def Within (u w v : ℕ) : Prop := if u ≤ w then u < v ∧ v ≤ w else u < v ∨ v ≤ w

instance (u w v : ℕ) : Decidable (Within u w v) := by
  unfold Within
  infer_instance

variable {p : ℕ}

theorem one_le_value (n : ℕ) : 1 ≤ value p n := Nat.le_add_left 1 _

theorem value_le (h : 0 < p) (n : ℕ) : value p n ≤ p := Nat.mod_lt n h

theorem value_eq_iff (m n : ℕ) : value p m = value p n ↔ m ≡ n [MOD p] :=
  Nat.add_right_cancel_iff

/-- The largest value is followed by the smallest. -/
theorem value_succ (h : 0 < p) (n : ℕ) : value p (n + 1) =
    if value p n < p then value p n + 1 else 1 := by
  have hlt := Nat.mod_lt n h
  unfold value
  rw [Nat.add_mod_eq_ite]
  rcases Nat.lt_or_ge 1 p with hone | hone
  · rw [Nat.mod_eq_of_lt hone]
    split <;> split <;> omega
  · have hp : p = 1 := by omega
    subst hp
    simp [Nat.mod_one]

/-- Less than a period later, the value has grown by as much or has gone round once. -/
theorem value_add {d : ℕ} (hd : d < p) (n : ℕ) :
    value p (n + d) = value p n + d ∨
    value p (n + d) + p = value p n + d := by
  have hlt := Nat.mod_lt n (Nat.zero_lt_of_lt hd)
  unfold value
  rw [Nat.add_mod_eq_ite,Nat.mod_eq_of_lt hd]
  split <;> omega

/-- Within a period, equal values are the same step. -/
theorem value_inj {m n : ℕ} (h : value p m = value p n) (hm : m < n + p)
    (hn : n < m + p) : m = n := by
  rcases Nat.le_total m n with hle | hle
  · have hadd := value_add (p := p) (d := n - m) (by omega) m
    rw [Nat.add_sub_of_le hle] at hadd
    omega
  · have hadd := value_add (p := p) (d := m - n) (by omega) n
    rw [Nat.add_sub_of_le hle] at hadd
    omega

/-- Of the last `p` values, those within `a` and `b` are the ones that came after `a`. -/
theorem within_iff {a b k : ℕ} (hab : a ≤ b) (hb : b < a + p) (hk : k ≤ b)
    (hkb : b < k + p) :
    Within (value p a) (value p b) (value p k) ↔ a < k := by
  have hpos : 0 < p := by omega
  have ha' := value_le hpos a
  have hb' := value_le hpos b
  have hk' := value_le hpos k
  have ha₁ := one_le_value (p := p) a
  have hb₁ := one_le_value (p := p) b
  have hk₁ := one_le_value (p := p) k
  have habv := value_add (p := p) (d := b - a) (by omega) a
  have hkbv := value_add (p := p) (d := b - k) (by omega) k
  rw [Nat.add_sub_of_le hab] at habv
  rw [Nat.add_sub_of_le hk] at hkbv
  unfold Within
  split <;> omega

end AkidaEdma.CyclicCounter
