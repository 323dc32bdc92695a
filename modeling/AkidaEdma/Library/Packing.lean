import Mathlib.Data.List.Basic

/-! # Filling boxes of one size

Elements come one by one and are put into the last box; a new one is opened when it is full.
-/
namespace AkidaEdma.Packing
variable {α : Type*}

/-- The full boxes of size `n`, and the one that is being filled. -/
structure Packed (n : ℕ) (full : List (List α)) (last : List α) : Prop where
  filled : ∀ b ∈ full, b.length = n
  le : last.length ≤ n
  started : last = [] → full = []

theorem packed_nil (n : ℕ) : Packed n ([] : List (List α)) [] :=
  ⟨fun _ hb => absurd hb List.not_mem_nil,Nat.zero_le n,fun _ => rfl⟩

theorem Packed.next {n : ℕ} {full : List (List α)} {last : List α} (h : Packed n full last)
    (hn : 1 ≤ n) (hlast : last.length = n) (x : α) : Packed n (full ++ [last]) [x] := by
  refine ⟨?_,hn,fun hx => absurd hx (List.cons_ne_nil x [])⟩
  intro b hb
  rcases List.mem_append.mp hb with hb | hb
  · exact h.filled b hb
  · rw [List.mem_singleton.mp hb]
    exact hlast

theorem Packed.push {n : ℕ} {full : List (List α)} {last : List α} (h : Packed n full last)
    (hlast : last.length ≠ n) (x : α) : Packed n full (last ++ [x]) := by
  refine ⟨h.filled,?_,fun hx => absurd hx (List.append_ne_nil_of_right_ne_nil _ (by simp))⟩
  have hle := h.le
  rw [List.length_append,List.length_singleton]
  omega

theorem length_flatten_full {n : ℕ} {full : List (List α)} (h : ∀ b ∈ full, b.length = n) :
    full.flatten.length = full.length * n := by
  induction full with
  | nil => simp
  | cons b rest ih =>
    have hb := h b List.mem_cons_self
    have hrest := ih (fun c hc => h c (List.mem_cons_of_mem b hc))
    rw [List.flatten_cons,List.length_append,hb,hrest,List.length_cons,Nat.succ_mul,Nat.add_comm]

/-- The first boxes hold the first elements. -/
theorem flatten_take_full {n j : ℕ} {boxes : List (List α)} (hj : j ≤ boxes.length)
    (h : ∀ b ∈ boxes.take j, b.length = n) :
    (boxes.take j).flatten = boxes.flatten.take (j * n) := by
  have hlen : (boxes.take j).flatten.length = j * n := by
    rw [length_flatten_full h,List.length_take,Nat.min_eq_left hj]
  have hsplit : boxes.flatten = (boxes.take j).flatten ++ (boxes.drop j).flatten := by
    rw [← List.flatten_append,List.take_append_drop]
  rw [hsplit,List.take_left' hlen]

/-- No box is empty once an element has come. -/
theorem Packed.ne_nil {n : ℕ} {full : List (List α)} {last : List α} (h : Packed n full last)
    (hn : 1 ≤ n) (hlast : last ≠ []) : ∀ b ∈ full ++ [last], b ≠ [] := by
  intro b hb
  rcases List.mem_append.mp hb with hb | hb
  · have hlen := h.filled b hb
    rintro rfl
    rw [List.length_nil] at hlen
    omega
  · rw [List.mem_singleton.mp hb]
    exact hlast

theorem Packed.le_of_mem {n : ℕ} {full : List (List α)} {last : List α} (h : Packed n full last) :
    ∀ b ∈ full ++ [last], b.length ≤ n := by
  intro b hb
  rcases List.mem_append.mp hb with hb | hb
  · exact Nat.le_of_eq (h.filled b hb)
  · rw [List.mem_singleton.mp hb]
    exact h.le

/-- The number of boxes is that of the elements over the size, rounded up. -/
theorem Packed.count {n : ℕ} {full : List (List α)} {last : List α} (h : Packed n full last)
    (hn : 1 ≤ n) (hlast : last ≠ []) :
    (full ++ [last]).length = ((full ++ [last]).flatten.length + n - 1) / n := by
  have hpos : 1 ≤ last.length := List.length_pos_iff.mpr hlast
  have hle := h.le
  have htotal : (full ++ [last]).flatten.length = full.length * n + last.length := by
    rw [List.flatten_append,List.length_append,length_flatten_full h.filled,List.flatten_singleton]
  rw [htotal,List.length_append,List.length_singleton]
  symm
  rw [Nat.div_eq_iff (by omega)]
  constructor
  · rw [Nat.add_mul]
    omega
  · rw [Nat.add_mul]
    omega

end AkidaEdma.Packing
