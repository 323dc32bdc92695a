import AkidaEdma.Library.Ledger
import Mathlib.Data.Finset.Image
import Mathlib.Data.Set.Operations

/-! # Several holders of one ledger

What one of them does to its own resources, whatever the others hold.
-/
namespace AkidaEdma.Ledger
variable {α β : Type*}

def Event.map (f : α → β) : Event α → Event β
  | .acquire a => .acquire (f a)
  | .release a => .release (f a)

theorem acquired_map (f : α → β) (es : List (Event α)) :
    acquired (es.map (Event.map f)) = (acquired es).map f := by
  induction es with
  | nil => rfl
  | cons e es ih =>
    cases e with
    | acquire a => exact congrArg (f a :: ·) ih
    | release a => exact ih

variable [DecidableEq α] [DecidableEq β]

/-- The history runs through and leads from the resources `P` of a holder to `P'`, whatever the
others hold that it does not acquire. Nobody else holds any of `mine`. -/
def Brings (mine P : Set α) (es : List (Event α)) (P' : Set α) : Prop :=
  ∀ (held : Finset α) (Q : Set α), (∀ x, x ∈ held ↔ x ∈ P ∨ x ∈ Q) → (∀ x ∈ P, x ∉ Q) →
    (∀ x ∈ mine, x ∉ Q) → (∀ x ∈ acquired es, x ∉ Q) →
    ∃ held', exec held es = some held' ∧ (∀ x, x ∈ held' ↔ x ∈ P' ∨ x ∈ Q) ∧ ∀ x ∈ P', x ∉ Q

variable {mine : Set α}

theorem brings_nil {P P' : Set α} (h : P' = P) : Brings mine P [] P' := by
  subst h
  exact fun held Q hheld hdisj _ _ => ⟨held,rfl,hheld,hdisj⟩

theorem brings_acquire {P P' : Set α} {a : α} (ha : a ∉ P) (h : ∀ x, x ∈ P' ↔ x = a ∨ x ∈ P) :
    Brings mine P [.acquire a] P' := by
  intro held Q hheld hdisj _ hnew
  have haQ : a ∉ Q := hnew a List.mem_cons_self
  have hout : a ∉ held := by
    rw [hheld]
    rintro (hmem | hmem)
    · exact ha hmem
    · exact haQ hmem
  refine ⟨insert a held,?_,fun x => ?_,fun x hx => ?_⟩
  · rw [exec,apply,if_neg hout]
    rfl
  · rw [Finset.mem_insert,hheld,h,or_assoc]
  · rcases (h x).mp hx with rfl | hmem
    · exact haQ
    · exact hdisj x hmem

theorem brings_release {P P' : Set α} {a : α} (ha : a ∈ P) (h : ∀ x, x ∈ P' ↔ x ≠ a ∧ x ∈ P) :
    Brings mine P [.release a] P' := by
  intro held Q hheld hdisj _ _
  have hin : a ∈ held := (hheld a).mpr (Or.inl ha)
  have haQ : a ∉ Q := hdisj a ha
  refine ⟨held.erase a,?_,fun x => ?_,fun x hx => hdisj x ((h x).mp hx).2⟩
  · rw [exec,apply,if_pos hin]
    rfl
  · rw [Finset.mem_erase,hheld,h]
    constructor
    · rintro ⟨hne,hx | hx⟩
      · exact Or.inl ⟨hne,hx⟩
      · exact Or.inr hx
    · rintro (⟨hne,hx⟩ | hx)
      · exact ⟨hne,Or.inl hx⟩
      · exact ⟨fun he => haQ (he ▸ hx),Or.inr hx⟩

/-! ## Histories of a part -/

theorem apply_map {f : α → β} (hf : Function.Injective f) {held held' : Finset α} {rest : Finset β}
    (hrest : ∀ a, f a ∉ rest) {e : Event α} (h : apply held e = some held') :
    apply (held.image f ∪ rest) (e.map f) = some (held'.image f ∪ rest) := by
  have hmem : ∀ a, f a ∈ held.image f ∪ rest ↔ a ∈ held := by
    intro a
    rw [Finset.mem_union,hf.mem_finset_image]
    exact ⟨fun h => h.resolve_right (hrest a),Or.inl⟩
  cases e with
  | acquire a =>
    rw [apply] at h
    split at h
    · contradiction
    · rename_i ha
      obtain rfl := Option.some.inj h
      rw [Event.map,apply,if_neg (mt (hmem a).mp ha),Finset.image_insert,Finset.insert_union]
  | release a =>
    rw [apply] at h
    split at h
    · rename_i ha
      obtain rfl := Option.some.inj h
      rw [Event.map,apply,if_pos ((hmem a).mpr ha),Finset.image_erase hf,Finset.erase_union_distrib,
        Finset.erase_eq_of_notMem (hrest a)]
    · contradiction

theorem exec_map {f : α → β} (hf : Function.Injective f) {rest : Finset β}
    (hrest : ∀ a, f a ∉ rest) {es : List (Event α)} :
    ∀ {held held' : Finset α}, exec held es = some held' →
      exec (held.image f ∪ rest) (es.map (Event.map f)) = some (held'.image f ∪ rest) := by
  induction es with
  | nil =>
    intro held held' h
    obtain rfl := Option.some.inj h
    rfl
  | cons e es ih =>
    intro held held' h
    obtain ⟨mid,hmid,h⟩ := Option.bind_eq_some_iff.mp h
    rw [List.map_cons,exec,apply_map hf hrest hmid,Option.bind_some]
    exact ih h

/-- A history of a part of the resources, among all. -/
theorem brings_map {f : α → β} (hf : Function.Injective f) {mine P P' : Set β}
    {es : List (Event α)} {held held' : Finset α} (he : exec held es = some held')
    (hmine : ∀ a, f a ∈ mine) (hP : ∀ a, f a ∈ P ↔ a ∈ held) (hP' : ∀ a, f a ∈ P' ↔ a ∈ held')
    (hsame : ∀ x, x ∉ Set.range f → (x ∈ P' ↔ x ∈ P)) :
    Brings mine P (es.map (Event.map f)) P' := by
  intro all Q hall hdisj hmineQ _
  have hQ : ∀ a, f a ∉ Q := fun a => hmineQ (f a) (hmine a)
  have hsplit : all = held.image f ∪ all.filter (fun x => x ∉ held.image f) := by
    ext x
    rw [Finset.mem_union,Finset.mem_filter]
    constructor
    · intro hx
      by_cases hin : x ∈ held.image f
      · exact Or.inl hin
      · exact Or.inr ⟨hx,hin⟩
    · rintro (hx | ⟨hx,_⟩)
      · obtain ⟨a,ha,rfl⟩ := Finset.mem_image.mp hx
        exact (hall _).mpr (Or.inl ((hP a).mpr ha))
      · exact hx
  have hrest : ∀ a, f a ∉ all.filter fun x => x ∉ held.image f := by
    intro a hmem
    obtain ⟨hin,hout⟩ := Finset.mem_filter.mp hmem
    rcases (hall _).mp hin with h | h
    · exact hout (Finset.mem_image_of_mem f ((hP a).mp h))
    · exact hQ a h
  have hexec := exec_map hf hrest he
  rw [← hsplit] at hexec
  have hmem : ∀ x, x ∈ held'.image f ∪ all.filter (fun x => x ∉ held.image f) ↔
      x ∈ P' ∨ x ∈ Q := by
    intro x
    by_cases hx : x ∈ Set.range f
    · obtain ⟨a,rfl⟩ := hx
      rw [Finset.mem_union,hf.mem_finset_image,hP']
      exact ⟨fun h => Or.inl (h.resolve_right (hrest a)),fun h => Or.inl (h.resolve_right (hQ a))⟩
    · have hout : ∀ s : Finset α, x ∉ s.image f := by
        intro s hmem
        obtain ⟨a,_,rfl⟩ := Finset.mem_image.mp hmem
        exact hx ⟨a,rfl⟩
      rw [Finset.mem_union,Finset.mem_filter,hall,hsame x hx]
      exact ⟨fun h => (h.resolve_left (hout held')).1,fun h => Or.inr ⟨h,hout held⟩⟩
  refine ⟨_,hexec,hmem,fun x hx hxQ => ?_⟩
  by_cases hr : x ∈ Set.range f
  · obtain ⟨a,rfl⟩ := hr
    exact hQ a hxQ
  · exact hdisj x ((hsame x hr).mp hx) hxQ

end AkidaEdma.Ledger
