import Mathlib.Data.Finset.Basic
import Mathlib.Data.Finset.Lattice.Lemmas

/-! # Resources that are acquired and released

A history of acquisitions and releases, run against the set of the resources that are held. It
fails where it acquires what is held or releases what is not.
-/
namespace AkidaEdma.Ledger
variable {α : Type*}

inductive Event (α : Type*)
  | acquire (a : α)
  | release (a : α)
  deriving DecidableEq, Repr

variable [DecidableEq α]

def apply (held : Finset α) : Event α → Option (Finset α)
  | .acquire a => if a ∈ held then none else some (insert a held)
  | .release a => if a ∈ held then some (held.erase a) else none

def exec (held : Finset α) : List (Event α) → Option (Finset α)
  | [] => some held
  | e :: es => (apply held e).bind fun held => exec held es

omit [DecidableEq α] in
/-- The resources that a history acquires, in order. -/
def acquired (es : List (Event α)) : List α :=
  es.filterMap fun | .acquire a => some a | .release _ => none

theorem exec_append (held : Finset α) (es fs : List (Event α)) :
    exec held (es ++ fs) = (exec held es).bind fun held => exec held fs := by
  induction es generalizing held with
  | nil => rfl
  | cons e es ih =>
    rw [List.cons_append,exec,exec]
    cases apply held e with
    | none => rfl
    | some held' => exact ih held'

theorem exec_acquire {held : Finset α} {xs : List α} (hnew : ∀ x ∈ xs, x ∉ held)
    (hx : xs.Nodup) : exec held (xs.map .acquire) = some (held ∪ xs.toFinset) := by
  induction xs generalizing held with
  | nil => simp [exec]
  | cons x xs ih =>
    obtain ⟨hx,hxs⟩ := List.nodup_cons.mp hx
    have hfresh : ∀ y ∈ xs, y ∉ insert x held := by
      intro y hy hmem
      rcases Finset.mem_insert.mp hmem with rfl | hmem
      · exact hx hy
      · exact hnew y (List.mem_cons_of_mem x hy) hmem
    rw [List.map_cons,exec,apply,if_neg (hnew x List.mem_cons_self),Option.bind_some,ih hfresh hxs,
      List.toFinset_cons,Finset.insert_union,Finset.union_insert]

theorem exec_release {held : Finset α} {xs : List α} (hheld : ∀ x ∈ xs, x ∈ held)
    (hx : xs.Nodup) : exec held (xs.map .release) = some (held \ xs.toFinset) := by
  induction xs generalizing held with
  | nil => simp [exec]
  | cons x xs ih =>
    obtain ⟨hx,hxs⟩ := List.nodup_cons.mp hx
    have hrest : ∀ y ∈ xs, y ∈ held.erase x := by
      intro y hy
      have hne : y ≠ x := by
        rintro rfl
        exact hx hy
      exact Finset.mem_erase.mpr ⟨hne,hheld y (List.mem_cons_of_mem x hy)⟩
    rw [List.map_cons,exec,apply,if_pos (hheld x List.mem_cons_self),Option.bind_some,ih hrest hxs,
      List.toFinset_cons,Finset.sdiff_insert,Finset.erase_sdiff_comm]

/-- What is acquired and then released again is not held. -/
theorem exec_balanced {xs ys : List α} (hx : xs.Nodup) (hy : ys.Perm xs) (held : Finset α)
    (hnew : ∀ x ∈ xs, x ∉ held) :
    exec held (xs.map .acquire ++ ys.map .release) = some held := by
  have hmem : ∀ y ∈ ys, y ∈ held ∪ xs.toFinset := by
    intro y hy'
    exact Finset.mem_union_right _ (List.mem_toFinset.mpr (hy.subset hy'))
  rw [exec_append,exec_acquire hnew hx,Option.bind_some,exec_release hmem (hy.nodup_iff.mpr hx),
    List.toFinset_eq_of_perm _ _ hy,Finset.union_sdiff_right]
  congr 1
  apply Finset.sdiff_eq_self_of_disjoint
  rw [Finset.disjoint_left]
  intro x hx' hmem
  exact hnew x (List.mem_toFinset.mp hmem) hx'

omit [DecidableEq α] in
theorem acquired_append (es fs : List (Event α)) :
    acquired (es ++ fs) = acquired es ++ acquired fs := List.filterMap_append

omit [DecidableEq α] in
theorem acquired_acquire (xs : List α) : acquired (xs.map .acquire) = xs := by
  induction xs with
  | nil => rfl
  | cons x xs ih => exact congrArg (x :: ·) ih

omit [DecidableEq α] in
theorem acquired_release (xs : List α) : acquired (xs.map .release) = [] := by
  induction xs with
  | nil => rfl
  | cons x xs ih => exact ih

end AkidaEdma.Ledger
