import AkidaEdma.Library.Footprint
import Mathlib.Tactic.Ring

/-! # Words in a memory of bytes

A word of `n` bytes is stored with its lowest byte first.
-/
namespace AkidaEdma.LittleEndian
open Footprint

abbrev Memory := ℕ → BitVec 8

def byte (w i : ℕ) : BitVec 8 := BitVec.ofNat 8 (w / 256^i)

/-- The `n` lowest bytes of `w`, written from `a`. -/
def store (a n w : ℕ) (m : Memory) : Memory := overwrite a n (byte w) m

/-- The word of `n` bytes at `a`. -/
def load (a : ℕ) : ℕ → Memory → ℕ
  | 0, _ => 0
  | n+1, m => (m a).toNat + 256 * load (a+1) n m

theorem load_congr {a n : ℕ} {m m' : Memory} (h : ∀ x, a ≤ x → x < a + n → m' x = m x) :
    load a n m' = load a n m := by
  induction n generalizing a with
  | zero => rfl
  | succ n ih =>
    have hrest := ih (a := a + 1) (fun x hlo hhi => h x (by omega) (by omega))
    have hhead : m' a = m a := h a (Nat.le_refl a) (by omega)
    rw [load,load,hhead,hrest]

/-- A word can be read at another place of a memory with the same bytes there. -/
theorem load_shift {a a' n : ℕ} {m m' : Memory} (h : ∀ i, i < n → m' (a' + i) = m (a + i)) :
    load a' n m' = load a n m := by
  induction n generalizing a a' with
  | zero => rfl
  | succ n ih =>
    have hrest : load (a' + 1) n m' = load (a + 1) n m := by
      refine ih fun i hi => ?_
      have hbyte := h (i + 1) (by omega)
      rwa [Nat.add_comm i 1,← Nat.add_assoc,← Nat.add_assoc] at hbyte
    have hhead : m' a' = m a := h 0 (Nat.succ_pos n)
    rw [load,load,hhead,hrest]

/-- A word is read back as it was written, reduced to its width. -/
theorem load_store (a n w : ℕ) (m : Memory) : load a n (store a n w m) = w % 256^n := by
  -- the induction is over words that begin at byte `k` of the one that is stored
  have hgen : ∀ k j, j + k = n → load (a + k) j (store a n w m) = w / 256^k % 256^j := by
    intro k j
    induction j generalizing k with
    | zero =>
      intro _
      rw [pow_zero,Nat.mod_one]
      rfl
    | succ j ih =>
      intro hjk
      have hrest := ih (k+1) (by omega)
      have hbyte : store a n w m (a + k) = byte w k := overwrite_inside _ m (by omega)
      have hdiv : w / 256^(k+1) = w / 256^k / 256 := by
        rw [pow_succ,Nat.div_div_eq_div_mul]
      rw [load,Nat.add_assoc,hrest,hbyte,byte,BitVec.toNat_ofNat,hdiv,pow_succ 256 j,
        Nat.mul_comm (256^j) 256,Nat.mod_mul]
  have hword := hgen 0 n (Nat.add_zero n)
  rwa [pow_zero,Nat.div_one] at hword

theorem load_store_of_lt {a n w : ℕ} (m : Memory) (h : w < 256^n) :
    load a n (store a n w m) = w := by
  rw [load_store,Nat.mod_eq_of_lt h]

theorem store_outside {a n w x : ℕ} (m : Memory) (h : x < a ∨ a + n ≤ x) :
    store a n w m x = m x := by
  refine overwrite_outside _ m ?_
  rw [Set.mem_Ico]
  omega

/-- A word is left alone by a write beside it. -/
theorem load_store_apart {a b n k w : ℕ} (m : Memory) (h : b + k ≤ a ∨ a + n ≤ b) :
    load b k (store a n w m) = load b k m :=
  load_congr (fun x _ _ => store_outside m (by omega))

/-- A word can be written in two parts, the lower one first. -/
theorem store_split (a n k w : ℕ) (m : Memory) :
    store (a + n) k (w / 256^n) (store a n w m) = store a (n + k) w m := by
  funext x
  by_cases hhi : a + n ≤ x ∧ x < a + n + k
  · obtain ⟨i,rfl⟩ := Nat.exists_eq_add_of_le hhi.1
    have hupper : store (a + n) k (w / 256^n) (store a n w m) (a + n + i) = byte (w / 256^n) i :=
      overwrite_inside _ _ (by omega)
    have hwhole : store a (n + k) w m (a + (n + i)) = byte w (n + i) :=
      overwrite_inside _ m (by omega)
    rw [hupper,Nat.add_assoc,hwhole,byte,byte,pow_add,Nat.div_div_eq_div_mul]
  · rw [store_outside _ (by omega)]
    by_cases hlo : a ≤ x ∧ x < a + n
    · obtain ⟨i,rfl⟩ := Nat.exists_eq_add_of_le hlo.1
      have hlower : store a n w m (a + i) = byte w i := overwrite_inside _ m (by omega)
      have hwhole : store a (n + k) w m (a + i) = byte w i := overwrite_inside _ m (by omega)
      rw [hlower,hwhole]
    · rw [store_outside m (by omega),store_outside m (by omega)]

end AkidaEdma.LittleEndian
