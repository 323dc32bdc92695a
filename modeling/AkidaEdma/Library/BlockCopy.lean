import AkidaEdma.Library.Footprint
import Mathlib.Algebra.BigOperators.Group.List.Basic
import Mathlib.Algebra.GroupWithZero.Nat
import Mathlib.Data.List.Pairwise

/-! # Sequences of block copies

Blocks are copied one after the other from one memory to another, which is not read meanwhile.
Where no block goes over another, every byte of a target is that of its source; where the targets
follow one another, they are gathered into one block.
-/
namespace AkidaEdma.BlockCopy
open Footprint
variable {β : Type*}

/-- A block of `len` bytes, from `src` to `dst`. -/
structure Copy where
  src : ℕ
  dst : ℕ
  len : ℕ
  deriving DecidableEq, Repr

def Copy.target (c : Copy) : Set ℕ := Set.Ico c.dst (c.dst + c.len)

def Copy.source (c : Copy) : Set ℕ := Set.Ico c.src (c.src + c.len)

def Copy.run (c : Copy) (read write : ℕ → β) : ℕ → β :=
  overwrite c.dst c.len (fun i => read (c.src + i)) write

def copies (cs : List Copy) (read write : ℕ → β) : ℕ → β :=
  cs.foldl (fun m c => c.run read m) write

theorem copies_outside {cs : List Copy} {x : ℕ} (h : ∀ c ∈ cs, x ∉ c.target)
    (read write : ℕ → β) : copies cs read write x = write x := by
  induction cs generalizing write with
  | nil => rfl
  | cons c cs ih =>
    have hrest := ih (fun d hd => h d (List.mem_cons_of_mem c hd)) (c.run read write)
    exact hrest.trans (overwrite_outside _ _ (h c List.mem_cons_self))

/-- The copies depend on their sources, and on the bytes they do not write. -/
theorem copies_congr {cs : List Copy} {A : Set ℕ} {read read' write write' : ℕ → β}
    (hread : ∀ c ∈ cs, Set.EqOn read' read c.source) (hwrite : Set.EqOn write' write A) :
    Set.EqOn (copies cs read' write') (copies cs read write) A := by
  induction cs generalizing write write' with
  | nil => exact hwrite
  | cons c cs ih =>
    refine ih (fun d hd => hread d (List.mem_cons_of_mem c hd)) fun x hx => ?_
    change c.run read' write' x = c.run read write x
    simp only [Copy.run,overwrite]
    split
    · exact hread c List.mem_cons_self ⟨Nat.le_add_right _ _,by omega⟩
    · exact hwrite hx

/-- A byte of a block is the one copied there, if no later block goes over it. -/
theorem copies_inside {cs : List Copy} (h : cs.Pairwise fun c d => Disjoint c.target d.target)
    {c : Copy} (hc : c ∈ cs) (read write : ℕ → β) {i : ℕ} (hi : i < c.len) :
    copies cs read write (c.dst + i) = read (c.src + i) := by
  induction cs generalizing write with
  | nil => contradiction
  | cons d cs ih =>
    obtain ⟨hd,hcs⟩ := List.pairwise_cons.mp h
    rcases List.mem_cons.mp hc with rfl | hmem
    · have hin : c.dst + i ∈ c.target := ⟨Nat.le_add_right _ _,by omega⟩
      have hout : ∀ e ∈ cs, c.dst + i ∉ e.target :=
        fun e he => Set.disjoint_left.mp (hd e he) hin
      exact (copies_outside hout read _).trans (overwrite_inside _ _ hi)
    · exact ih hcs hmem (d.run read write)

/-! ## Targets that follow one another -/

/-- Every block begins where the one before it ends, the first at `a`. -/
def Consecutive : ℕ → List Copy → Prop
  | _, [] => True
  | a, c :: cs => c.dst = a ∧ Consecutive (a + c.len) cs

def total (cs : List Copy) : ℕ := (cs.map Copy.len).sum

theorem Consecutive.target_subset {a : ℕ} {cs : List Copy} (h : Consecutive a cs) {c : Copy}
    (hc : c ∈ cs) : c.target ⊆ Set.Ico a (a + total cs) := by
  induction cs generalizing a with
  | nil => contradiction
  | cons d cs ih =>
    obtain ⟨hd,hcs⟩ := h
    have htotal : total (d :: cs) = d.len + total cs := rfl
    rcases List.mem_cons.mp hc with rfl | hmem
    · exact Set.Ico_subset_Ico (by omega) (by omega)
    · exact (ih hcs hmem).trans (Set.Ico_subset_Ico (by omega) (by omega))

theorem Consecutive.pairwise {a : ℕ} {cs : List Copy} (h : Consecutive a cs) :
    cs.Pairwise fun c d => Disjoint c.target d.target := by
  induction cs generalizing a with
  | nil => exact .nil
  | cons c cs ih =>
    obtain ⟨hc,hcs⟩ := h
    refine List.pairwise_cons.mpr ⟨fun d hd => ?_,ih hcs⟩
    refine Set.disjoint_left.mpr fun x hx hx' => ?_
    have hlo := (hcs.target_subset hd hx').1
    have hhi := hx.2
    omega

theorem Consecutive.outside {a x : ℕ} {cs : List Copy} (h : Consecutive a cs)
    (hx : x ∉ Set.Ico a (a + total cs)) (read write : ℕ → β) :
    copies cs read write x = write x :=
  copies_outside (fun _ hc hmem => hx (h.target_subset hc hmem)) read write

end AkidaEdma.BlockCopy
