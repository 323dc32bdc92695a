import Mathlib.Data.List.Nodup
import Mathlib.Logic.Function.Basic

/-! # Circular lists in memory

Doubly linked circular lists whose nodes lie in a pool of live objects, with a head that is a
node like the others. An access to a node that is not live fails.
-/
namespace AkidaEdma.ListHead
variable {α β σ : Type*}

structure Node (α β : Type*) where
  next : α
  prev : α
  val : β
  deriving DecidableEq, Repr

/-- The live nodes. -/
abbrev Pool (α β : Type*) := α → Option (Node α β)

def first : List (α × β) → α → α
  | [], a => a
  | (x,_) :: _, _ => x

def last : List (α × β) → α → α
  | [], a => a
  | (x,_) :: xs, _ => last xs x

/-- The nodes `xs` are linked one after the other, between `a` and `b`. -/
def Seg (p : Pool α β) : α → List (α × β) → α → Prop
  | _, [], _ => True
  | a, (x,v) :: xs, b => p x = some ⟨first xs b,a,v⟩ ∧ Seg p x xs b

/-- A list with its head and the values at its nodes. -/
structure Circle (p : Pool α β) (head : α) (hv : β) (xs : List (α × β)) : Prop where
  head_eq : p head = some ⟨first xs head,last xs head,hv⟩
  seg : Seg p head xs head
  nodup : (head :: xs.map Prod.fst).Nodup

theorem first_append (xs ys : List (α × β)) (a : α) :
    first (xs ++ ys) a = first xs (first ys a) := by
  cases xs with
  | nil => rfl
  | cons x xs => rfl

theorem last_append (xs ys : List (α × β)) (a : α) : last (xs ++ ys) a = last ys (last xs a) := by
  induction xs generalizing a with
  | nil => rfl
  | cons x xs ih => exact ih x.1

theorem seg_append {p : Pool α β} {xs ys : List (α × β)} {a b : α} :
    Seg p a (xs ++ ys) b ↔ Seg p a xs (first ys b) ∧ Seg p (last xs a) ys b := by
  induction xs generalizing a with
  | nil => simp [Seg,last]
  | cons x xs ih => rw [List.cons_append,Seg,Seg,ih,first_append,and_assoc,last]

theorem seg_congr {p q : Pool α β} {xs : List (α × β)} {a b : α}
    (h : ∀ x ∈ xs.map Prod.fst, q x = p x) (hp : Seg p a xs b) : Seg q a xs b := by
  induction xs generalizing a with
  | nil => trivial
  | cons x xs ih =>
    refine ⟨?_,ih (fun y hy => h y (List.mem_cons_of_mem _ hy)) hp.2⟩
    rw [h x.1 List.mem_cons_self]
    exact hp.1

/-- Only the nodes of a list bear on it. -/
theorem Circle.congr {p q : Pool α β} {head : α} {hv : β} {xs : List (α × β)}
    (h : ∀ x ∈ head :: xs.map Prod.fst, q x = p x) (hp : Circle p head hv xs) : Circle q head hv xs where
  head_eq := by
    rw [h head List.mem_cons_self]
    exact hp.head_eq
  seg := seg_congr (fun x hx => h x (List.mem_cons_of_mem _ hx)) hp.seg
  nodup := hp.nodup

theorem Circle.node {p : Pool α β} {head : α} {hv : β} (xs : List (α × β)) {ys : List (α × β)}
    {x : α} {v : β} (h : Circle p head hv (xs ++ (x,v) :: ys)) : p x = some ⟨first ys head,last xs head,v⟩ :=
  (seg_append.mp h.seg).2.1

theorem Circle.live {p : Pool α β} {head : α} {hv : β} {xs : List (α × β)} (h : Circle p head hv xs)
    {x : α} (hx : x ∈ head :: xs.map Prod.fst) : ∃ n, p x = some n := by
  rcases List.mem_cons.mp hx with rfl | hx
  · exact ⟨_,h.head_eq⟩
  · obtain ⟨⟨y,v⟩,hy,rfl⟩ := List.mem_map.mp hx
    obtain ⟨ys,zs,rfl⟩ := List.append_of_mem hy
    exact ⟨_,h.node _⟩

/-! ## Reading -/

/-- The values from `child` to the end of the list, which has at most `n` more nodes. -/
def values [DecidableEq α] (p : Pool α β) (head : α) : ℕ → α → Option (List β)
  | n, child =>
    if child = head then some []
    else
      match n with
      | 0 => none
      | n+1 => (p child).bind fun m => (values p head n m.next).map (m.val :: ·)

variable [DecidableEq α]

theorem values_seg {p : Pool α β} {head a : α} {xs : List (α × β)} (h : Seg p a xs head)
    (hne : head ∉ xs.map Prod.fst) {n : ℕ} (hn : xs.length ≤ n) :
    values p head n (first xs head) = some (xs.map Prod.snd) := by
  induction xs generalizing a n with
  | nil =>
    unfold values
    exact if_pos rfl
  | cons x xs ih =>
    obtain ⟨n,rfl⟩ := Nat.exists_eq_add_of_le' (Nat.le_trans (Nat.succ_pos _) hn)
    rw [List.map_cons,List.mem_cons,not_or] at hne
    have hrest := ih h.2 hne.2 (Nat.le_of_succ_le_succ hn)
    unfold values
    rw [if_neg (fun he => hne.1 he.symm)]
    change (p x.1).bind _ = _
    rw [h.1,Option.bind_some,hrest]
    rfl

theorem Circle.values {p : Pool α β} {head : α} {hv : β} {xs : List (α × β)} (h : Circle p head hv xs)
    {n : ℕ} (hn : xs.length ≤ n) :
    ListHead.values p head n (first xs head) = some (xs.map Prod.snd) :=
  values_seg h.seg (List.nodup_cons.mp h.nodup).1 hn

/-! ## Updates -/

def modify (p : Pool α β) (x : α) (f : Node α β → Node α β) : Option (Pool α β) :=
  (p x).map fun n => Function.update p x (some (f n))

def setVal (p : Pool α β) (x : α) (f : β → β) : Option (Pool α β) :=
  modify p x fun n => { n with val := f n.val }

/-- The object is not live any more. -/
def free (p : Pool α β) (x : α) : Option (Pool α β) := (p x).map fun _ => Function.update p x none

/-- A new object, linked to itself. -/
def new (p : Pool α β) (x : α) (v : β) : Pool α β := Function.update p x (some ⟨x,x,v⟩)

/-- `list_add_tail`. -/
def addTail (p : Pool α β) (x head : α) : Option (Pool α β) :=
  (p head).bind fun h =>
  (modify p head fun n => { n with prev := x }).bind fun p =>
  (modify p x fun n => { n with next := head, prev := h.prev }).bind fun p =>
  modify p h.prev fun n => { n with next := x }

/-- `list_del`. -/
def del (p : Pool α β) (x : α) : Option (Pool α β) :=
  (p x).bind fun n =>
  (modify p n.next fun m => { m with prev := n.prev }).bind fun p =>
  modify p n.prev fun m => { m with next := n.next }

theorem modify_some {p : Pool α β} {x : α} {n : Node α β} (h : p x = some n)
    (f : Node α β → Node α β) : modify p x f = some (Function.update p x (some (f n))) := by
  rw [modify,h,Option.map_some]

theorem free_some {p : Pool α β} {x : α} {n : Node α β} (h : p x = some n) :
    free p x = some (Function.update p x none) := by
  rw [free,h,Option.map_some]

theorem new_self (p : Pool α β) (x : α) (v : β) : new p x v x = some ⟨x,x,v⟩ :=
  Function.update_self ..

theorem new_circle (p : Pool α β) (x : α) (v : β) : Circle (new p x v) x v [] where
  head_eq := Function.update_self ..
  seg := trivial
  nodup := List.nodup_singleton x

theorem setVal_circle {p : Pool α β} {head : α} {hv : β} (xs : List (α × β)) {ys : List (α × β)}
    {x : α} {v : β} (h : Circle p head hv (xs ++ (x,v) :: ys)) (f : β → β) :
    ∃ q, setVal p x f = some q ∧ Circle q head hv (xs ++ (x,f v) :: ys) ∧ ∀ a, a ≠ x → q a = p a := by
  refine ⟨_,modify_some (h.node _) _,?_,fun a ha => Function.update_of_ne ha _ _⟩
  have hnodup := h.nodup
  have hfst : (xs ++ (x,f v) :: ys).map Prod.fst = (xs ++ (x,v) :: ys).map Prod.fst := by simp
  have hx : x ∉ head :: (xs.map Prod.fst ++ ys.map Prod.fst) := by
    rw [List.map_append,List.map_cons,← List.cons_append] at hnodup
    exact (List.nodup_middle.mp hnodup).notMem
  have hout : ∀ a ∈ head :: (xs.map Prod.fst ++ ys.map Prod.fst), a ≠ x := by
    rintro a ha rfl
    exact hx ha
  have hseg := seg_append.mp h.seg
  refine ⟨?_,seg_append.mpr ⟨?_,?_,?_⟩,?_⟩
  · rw [Function.update_of_ne (hout head List.mem_cons_self),h.head_eq,first_append,first_append,
      last_append,last_append]
    rfl
  · exact seg_congr (fun a ha => Function.update_of_ne
      (hout a (List.mem_cons_of_mem _ (List.mem_append_left _ ha))) _ _) hseg.1
  · exact Function.update_self ..
  · exact seg_congr (fun a ha => Function.update_of_ne
      (hout a (List.mem_cons_of_mem _ (List.mem_append_right _ ha))) _ _) hseg.2.2
  · rw [hfst]
    exact hnodup

/-- An object that is not in the list becomes its last element. -/
theorem addTail_circle {p : Pool α β} {head : α} {hv : β} {xs : List (α × β)} {x : α} {n : Node α β}
    (h : Circle p head hv xs) (hx : p x = some n) (hnew : x ∉ head :: xs.map Prod.fst) :
    ∃ q, addTail p x head = some q ∧ Circle q head hv (xs ++ [(x,n.val)]) ∧
      ∀ a, a ∉ head :: (xs ++ [(x,n.val)]).map Prod.fst → q a = p a := by
  have hxhead : x ≠ head := List.ne_of_not_mem_cons hnew
  have hnodup : (head :: (xs ++ [(x,n.val)]).map Prod.fst).Nodup := by
    rw [List.map_append,← List.cons_append]
    exact h.nodup.append (List.nodup_singleton x) (List.disjoint_singleton.mpr hnew)
  rcases List.eq_nil_or_concat xs with rfl | ⟨ys,⟨y,w⟩,rfl⟩
  · -- the head is also the node before the new one
    have hadd : addTail p x head = some (Function.update (Function.update (Function.update p head
        (some ⟨head,x,hv⟩)) x (some ⟨head,head,n.val⟩)) head (some ⟨x,x,hv⟩)) := by
      have hhead : p head = some ⟨head,head,hv⟩ := h.head_eq
      rw [addTail,hhead,Option.bind_some,modify_some hhead,Option.bind_some,
        modify_some (by rw [Function.update_of_ne hxhead,hx]),Option.bind_some,
        modify_some (n := ⟨head,x,hv⟩)
          (by rw [Function.update_of_ne hxhead.symm,Function.update_self])]
    refine ⟨_,hadd,⟨?_,⟨?_,trivial⟩,hnodup⟩,?_⟩
    · rw [Function.update_self]
      rfl
    · rw [Function.update_of_ne hxhead,Function.update_self]
      rfl
    · intro a ha
      simp only [List.nil_append,List.map_cons,List.map_nil,List.mem_cons,List.not_mem_nil,or_false,
        not_or] at ha
      rw [Function.update_of_ne ha.1,Function.update_of_ne ha.2,Function.update_of_ne ha.1]
  · rw [List.concat_eq_append] at *
    have hyx : y ≠ x := by
      rintro rfl
      simp at hnew
    have hyhead : y ≠ head := by
      rintro rfl
      have hn := (List.nodup_cons.mp h.nodup).1
      simp at hn
    have hlast : last (ys ++ [(y,w)]) head = y := by rw [last_append]; rfl
    have hhead := h.head_eq
    rw [hlast] at hhead
    have hy : p y = some ⟨head,last ys head,w⟩ := h.node _
    have hys : ∀ a ∈ ys.map Prod.fst, a ≠ head ∧ a ≠ x ∧ a ≠ y := by
      intro a ha
      have hn := h.nodup
      rw [List.map_append,List.nodup_cons,List.mem_append,not_or] at hn
      refine ⟨?_,?_,?_⟩
      · rintro rfl
        exact hn.1.1 ha
      · rintro rfl
        exact hnew (List.mem_cons_of_mem _ (by rw [List.map_append]; exact List.mem_append_left _ ha))
      · rintro rfl
        exact List.disjoint_of_nodup_append hn.2 ha (by simp)
    have hadd : addTail p x head = some (Function.update (Function.update (Function.update p head
        (some ⟨first (ys ++ [(y,w)]) head,x,hv⟩)) x (some ⟨head,y,n.val⟩)) y
        (some ⟨x,last ys head,w⟩)) := by
      rw [addTail,hhead,Option.bind_some,modify_some hhead,Option.bind_some,
        modify_some (by rw [Function.update_of_ne hxhead,hx]),Option.bind_some,
        modify_some (n := ⟨head,last ys head,w⟩)
          (by rw [Function.update_of_ne hyx,Function.update_of_ne hyhead,hy])]
    refine ⟨_,hadd,⟨?_,?_,hnodup⟩,?_⟩
    · rw [Function.update_of_ne hyhead.symm,Function.update_of_ne hxhead.symm,Function.update_self,
        first_append,last_append]
      cases ys <;> rfl
    · rw [List.append_assoc,seg_append]
      refine ⟨seg_congr (fun a ha => ?_) (seg_append.mp h.seg).1,?_,?_,trivial⟩
      · obtain ⟨hah,hax,hay⟩ := hys a ha
        rw [Function.update_of_ne hay,Function.update_of_ne hax,Function.update_of_ne hah]
      · rw [Function.update_self]
        rfl
      · rw [Function.update_of_ne hyx.symm,Function.update_self]
        rfl
    · intro a ha
      simp only [List.map_append,List.map_cons,List.map_nil,List.mem_cons,List.mem_append,
        List.not_mem_nil,or_false,not_or] at ha
      rw [Function.update_of_ne ha.2.1.2,Function.update_of_ne ha.2.2,Function.update_of_ne ha.1]

/-- The first element leaves the list; its own links stay. -/
theorem del_circle {p : Pool α β} {head : α} {hv : β} {xs : List (α × β)} {x : α} {v : β}
    (h : Circle p head hv ((x,v) :: xs)) : ∃ q, del p x = some q ∧ Circle q head hv xs ∧
      ∀ a, a ∉ head :: xs.map Prod.fst → q a = p a := by
  have hnode : p x = some ⟨first xs head,head,v⟩ := h.node []
  have hnodup := h.nodup
  rw [List.map_cons,List.nodup_cons,List.nodup_cons,List.mem_cons,not_or] at hnodup
  obtain ⟨⟨hheadx,hhead⟩,hx,hxs⟩ := hnodup
  have hrest : (head :: xs.map Prod.fst).Nodup := List.nodup_cons.mpr ⟨hhead,hxs⟩
  cases xs with
  | nil =>
    have hdel : del p x = some (Function.update (Function.update p head (some ⟨x,head,hv⟩)) head
        (some ⟨head,head,hv⟩)) := by
      rw [del,hnode,Option.bind_some,first,modify_some h.head_eq,Option.bind_some]
      exact modify_some (Function.update_self ..) _
    refine ⟨_,hdel,⟨?_,trivial,hrest⟩,?_⟩
    · rw [Function.update_self]
      rfl
    · intro a ha
      have hne : a ≠ head := List.ne_of_not_mem_cons ha
      rw [Function.update_of_ne hne,Function.update_of_ne hne]
  | cons y ys =>
    obtain ⟨y,w⟩ := y
    have hy : p y = some ⟨first ys head,x,w⟩ := h.node [(x,v)]
    have hyhead : y ≠ head := by
      rintro rfl
      simp at hhead
    have hys : ∀ a ∈ ys.map Prod.fst, a ≠ head ∧ a ≠ y := by
      intro a ha
      refine ⟨?_,?_⟩
      · rintro rfl
        exact hhead (List.mem_cons_of_mem _ ha)
      · rintro rfl
        exact (List.nodup_cons.mp hxs).1 ha
    have hdel : del p x = some (Function.update (Function.update p y (some ⟨first ys head,head,w⟩))
        head (some ⟨y,last ys y,hv⟩)) := by
      have hhead' : p head = some ⟨x,last ys y,hv⟩ := h.head_eq
      rw [del,hnode,Option.bind_some,first,modify_some hy,Option.bind_some,
        modify_some (n := ⟨x,last ys y,hv⟩) (by rw [Function.update_of_ne hyhead.symm,hhead'])]
    refine ⟨_,hdel,⟨?_,⟨?_,?_⟩,hrest⟩,?_⟩
    · rw [Function.update_self]
      rfl
    · rw [Function.update_of_ne hyhead,Function.update_self]
    · refine seg_congr (fun a ha => ?_) h.seg.2.2
      obtain ⟨hah,hay⟩ := hys a ha
      rw [Function.update_of_ne hah,Function.update_of_ne hay]
    · intro a ha
      simp only [List.map_cons,List.mem_cons,not_or] at ha
      rw [Function.update_of_ne ha.1,Function.update_of_ne ha.2.1]

/-! ## What a pool grows by -/

/-- `q` is `p` and the objects `ids`, of which `p` has none. -/
structure Grown (p q : α → Option β) (ids : List α) : Prop where
  same : ∀ a, a ∉ ids → q a = p a
  new : ∀ a ∈ ids, p a = none

omit [DecidableEq α] in
theorem Grown.refl (p : α → Option β) : Grown p p [] := ⟨fun _ _ => rfl,fun _ h => by contradiction⟩

omit [DecidableEq α] in
theorem Grown.change {p q r : α → Option β} {ids : List α} (h : Grown p q ids)
    (hr : ∀ a, a ∉ ids → r a = q a) : Grown p r ids :=
  ⟨fun a ha => (hr a ha).trans (h.same a ha),h.new⟩

omit [DecidableEq α] in
theorem Grown.more {p q r : α → Option β} {ids more : List α} (h : Grown p q ids)
    (hnew : ∀ a ∈ more, p a = none) (hr : ∀ a, a ∉ ids ++ more → r a = q a) :
    Grown p r (ids ++ more) where
  same a ha := (hr a ha).trans (h.same a fun hmem => ha (List.mem_append_left _ hmem))
  new a ha := by
    rcases List.mem_append.mp ha with ha | ha
    · exact h.new a ha
    · exact hnew a ha

omit [DecidableEq α] in
theorem Grown.fewer {p q r : α → Option β} {ids rest : List α} (h : Grown p q ids)
    (gone : List α) (hsub : ∀ a ∈ ids, a ∈ gone ∨ a ∈ rest) (hrest : ∀ a ∈ rest, a ∈ ids)
    (hnone : ∀ a ∈ gone, a ∉ rest → r a = none) (hr : ∀ a, a ∉ ids → r a = q a) : Grown p r rest where
  same a ha := by
    by_cases hmem : a ∈ ids
    · rcases hsub a hmem with hgone | hin
      · rw [hnone a hgone ha,h.new a hmem]
      · exact absurd hin ha
    · exact (hr a hmem).trans (h.same a hmem)
  new a ha := h.new a (hrest a ha)

omit [DecidableEq α] in
/-- With nothing left, the pool is what it was. -/
theorem Grown.eq {p q : α → Option β} (h : Grown p q []) : q = p :=
  funext fun a => h.same a List.not_mem_nil

/-! ## Loops that free -/

/-- `list_for_each_entry_safe` over the list with this head in a pool of the state, which the
body changes, from `child` with `next` read ahead; the result has the last value of `child`. -/
def forEachSafe (pool : σ → Pool α β) (body : σ → α → Option σ) (head : α) :
    ℕ → σ → α → α → Option (σ × α)
  | n, s, child, next =>
    if child = head then some (s,child)
    else
      match n with
      | 0 => none
      | n+1 => (body s child).bind fun s => (pool s next).bind fun m =>
        forEachSafe pool body head n s next m.next

/-- The loop with its initialization. -/
def forEachSafeEntry (pool : σ → Pool α β) (body : σ → α → Option σ) (head : α) (n : ℕ) (s : σ) :
    Option (σ × α) :=
  (pool s head).bind fun h => (pool s h.next).bind fun m =>
    forEachSafe pool body head n s h.next m.next

/-- A body that takes the first element off the list empties it; `child` is the head then. -/
theorem forEachSafe_circle (pool : σ → Pool α β) (body : σ → α → Option σ) (head : α)
    (I : List (α × β) → σ → Prop) (hcircle : ∀ xs s, I xs s → ∃ hv, Circle (pool s) head hv xs)
    (hbody : ∀ x xs s, I (x :: xs) s → ∃ t, body s x.1 = some t ∧ I xs t) {n : ℕ}
    {xs : List (α × β)} (hn : xs.length ≤ n) {s : σ} (hs : I xs s) :
    ∃ t, forEachSafeEntry pool body head n s = some (t,head) ∧ I [] t := by
  -- what is read ahead is the element after the next one
  have hnext : ∀ xs s, I xs s → ∃ m, pool s (first xs head) = some m ∧
      (∀ x ys, xs = x :: ys → m.next = first ys head) := by
    intro xs s hs
    obtain ⟨hv,hc⟩ := hcircle xs s hs
    cases xs with
    | nil => exact ⟨_,hc.head_eq,fun x ys h => by contradiction⟩
    | cons x xs =>
      refine ⟨_,hc.node (x := x.1) (v := x.2) [],fun y ys h => ?_⟩
      cases h
      rfl
  have hloop : ∀ xs n s m, xs.length ≤ n → I xs s → (∀ x ys, xs = x :: ys → m = first ys head) →
      ∃ t, forEachSafe pool body head n s (first xs head) m = some (t,head) ∧ I [] t := by
    intro xs
    induction xs with
    | nil =>
      intro n s m _ hs _
      refine ⟨s,?_,hs⟩
      unfold forEachSafe
      exact if_pos rfl
    | cons x xs ih =>
      intro n s m hn hs hm
      obtain ⟨n,rfl⟩ := Nat.exists_eq_add_of_le' (Nat.le_trans (Nat.succ_pos _) hn)
      obtain ⟨hv,hc⟩ := hcircle _ s hs
      have hne : x.1 ≠ head := by
        rintro he
        have hnot := (List.nodup_cons.mp hc.nodup).1
        rw [List.map_cons,he] at hnot
        exact hnot List.mem_cons_self
      obtain ⟨t,hbt,ht⟩ := hbody x xs s hs
      obtain ⟨k,hk,hkn⟩ := hnext xs t ht
      obtain ⟨u,hu,hI⟩ := ih n t k.next (Nat.le_of_succ_le_succ hn) ht hkn
      refine ⟨u,?_,hI⟩
      rw [hm x xs rfl]
      unfold forEachSafe
      rw [if_neg (show first (x :: xs) head ≠ head from hne)]
      change (body s x.1).bind _ = _
      rw [hbt,Option.bind_some,hk,Option.bind_some]
      exact hu
  obtain ⟨hv,hc⟩ := hcircle xs s hs
  obtain ⟨m,hm,hmn⟩ := hnext xs s hs
  obtain ⟨t,ht,hI⟩ := hloop xs n s m.next hn hs hmn
  refine ⟨t,?_,hI⟩
  rw [forEachSafeEntry,hc.head_eq,Option.bind_some,hm,Option.bind_some]
  exact ht

end AkidaEdma.ListHead
