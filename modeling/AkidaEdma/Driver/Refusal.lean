import AkidaEdma.Driver.DeviceMemory

/-! # The requests that are refused

The check excludes the end of a request with `<` and its start with `<=`, so that a request
which ends where the reserved area begins is refused.
-/
namespace AkidaEdma.Driver.DeviceMemory
open DwEdma

theorem isAllowed_eq_false_iff (ram : DmaRam) (r : Request) :
    isAllowed ram r.pos r.sz = false ↔ ram.start ≤ r.pos + r.sz ∧ r.pos < ram.stop := by
  have hsum : u64 (r.pos + r.sz) = r.pos + r.sz := Nat.mod_eq_of_lt r.fits
  simp only [isAllowed,hsum,Bool.or_eq_false_iff,decide_eq_false_iff_not,not_lt,not_le]

/-- A byte of the request lies in the reserved area. -/
def Overlaps (ram : DmaRam) (r : Request) : Prop :=
  ∃ a, a ∈ r.range ∧ a ∈ Set.Ico ram.start ram.stop

theorem overlaps_iff (ram : DmaRam) (r : Request) : Overlaps ram r ↔
    1 ≤ r.sz ∧ 1 ≤ ram.size ∧ ram.start < r.pos + r.sz ∧ r.pos < ram.stop := by
  have hstop : ram.stop = ram.start + ram.size := rfl
  simp only [Overlaps,Request.range,Set.mem_Ico]
  constructor
  · rintro ⟨a,hreq,hram⟩
    omega
  · rintro ⟨hsz,hsize,hlo,hhi⟩
    exact ⟨max r.pos ram.start,by omega,by omega⟩

/-- The request ends where the area begins, or the area is empty and inside the request. -/
def Edge (ram : DmaRam) (r : Request) : Prop :=
  r.pos + r.sz = ram.start ∨
    (ram.size = 0 ∧ r.pos < ram.start ∧ ram.start < r.pos + r.sz)

theorem enter_refused_iff {β : Type*} (ram : DmaRam) (r : Request) (user tmp : ℕ → β)
    (early : Option Errno) (hearly : early.map Errno.val ≠ some (-EINVAL)) :
    (Call.enter ram r user tmp early).ret = some (-EINVAL) ↔ isAllowed ram r.pos r.sz = false := by
  simp only [Call.enter]
  split <;> rename_i hallowed
  · simp [hearly,hallowed]
  · simp [hallowed]

/-- A refused request overlaps the reserved area, except at the edge. -/
theorem refused_overlaps_iff {β : Type*} (ram : DmaRam) (r : Request) (hsz : 1 ≤ r.sz)
    (user tmp : ℕ → β) :
    (∀ early : Option Errno, early.map Errno.val ≠ some (-EINVAL) →
        (Call.enter ram r user tmp early).ret = some (-EINVAL) → Overlaps ram r) ↔
      ¬ Edge ram r := by
  have hstop : ram.stop = ram.start + ram.size := rfl
  have hrefused : isAllowed ram r.pos r.sz = false → (Overlaps ram r ↔ ¬ Edge ram r) := by
    intro hallowed
    obtain ⟨hlo,hhi⟩ := (isAllowed_eq_false_iff ram r).mp hallowed
    rw [overlaps_iff,Edge]
    omega
  constructor
  · intro h hedge
    have hallowed : isAllowed ram r.pos r.sz = false := by
      rw [isAllowed_eq_false_iff]
      unfold Edge at hedge
      omega
    have hret := (enter_refused_iff ram r user tmp none (by simp)).mpr hallowed
    exact (hrefused hallowed).mp (h none (by simp) hret) hedge
  · intro hedge early hearly hret
    have hallowed := (enter_refused_iff ram r user tmp early hearly).mp hret
    exact (hrefused hallowed).mpr hedge

/-- The last word below the area. -/
def lastWord (way : Way) : Request := ⟨way,0x1ffffffc,4,by decide⟩

theorem lastWord_refused :
    (Call.enter defaultRam (lastWord .rx) (fun _ => 0) (fun _ => 0) none).ret = some (-EINVAL) ∧
      (Call.enter defaultRam (lastWord .tx) (fun _ => 0) (fun _ => 0) none).ret =
        some (-EINVAL) ∧
      ¬ Overlaps defaultRam (lastWord .rx) ∧ ¬ Overlaps defaultRam (lastWord .tx) := by
  rw [overlaps_iff,overlaps_iff]
  decide

/-- The next one lies across the beginning of the area and is refused with reason. -/
def acrossStart : Request := ⟨.tx,0x1ffffffc,8,by decide⟩

theorem acrossStart_overlaps : Overlaps defaultRam acrossStart :=
  (refused_overlaps_iff defaultRam acrossStart (by decide) (fun _ => 0) (fun _ => 0)).mpr
    (by unfold Edge; decide) none (by simp) (by decide)

end AkidaEdma.Driver.DeviceMemory
