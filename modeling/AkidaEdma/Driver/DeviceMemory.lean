import AkidaEdma.Driver.ReadWrite
import AkidaEdma.Library.Footprint
import AkidaEdma.Library.Transition
import Mathlib.Logic.Function.Basic

/-! # Reads and writes of the device memory

Any number of calls of `akida_read` and `akida_write`, interleaved chunk by chunk. The label
of a chunk brings its outcome and what a failure leaves behind. A memory and a buffer are
functions from their addresses.
-/
namespace AkidaEdma.Driver.DeviceMemory
open Transition Footprint
variable {β : Type*}

/-- The arguments of a call, with what the VFS promises about them. -/
structure Request where
  way : Way
  pos : ℕ
  sz : ℕ
  fits : pos + sz < 18446744073709551616

def Request.range (r : Request) : Set ℕ := Set.Ico r.pos (r.pos + r.sz)

/-- A call with its two buffers. Its loop never leaves the request. -/
structure Call (β : Type*) where
  req : Request
  loop : Loop
  inside : loop.At req.pos req.sz
  tmp : ℕ → β
  user : ℕ → β
  outcomes : List Outcome
  ret : Option ℤ

/-- The device memory and the calls made so far. -/
structure State (β : Type*) where
  mem : ℕ → β
  calls : ℕ → Option (Call β)

/-- What an iteration leaves in the device memory, `tmp` and the user buffer. -/
def Call.move (c : Call β) (mem junk : ℕ → β) (o : Outcome) : (ℕ → β) × (ℕ → β) × (ℕ → β) :=
  let size := c.loop.size
  match c.req.way with
  | .rx =>
    let tmp := overwrite 0 size (fun i => mem (c.loop.pos + i)) c.tmp
    match o with
    | .dmaError _ => (mem,junk,c.user)
    | .fault => (mem,tmp,overwrite c.loop.usrBuf size junk c.user)
    | .done => (mem,tmp,overwrite c.loop.usrBuf size tmp c.user)
  | .tx =>
    let tmp := overwrite 0 size (fun i => c.user (c.loop.usrBuf + i)) c.tmp
    match o with
    | .fault => (mem,overwrite 0 size junk c.tmp,c.user)
    | .dmaError _ => (overwrite c.loop.pos size junk mem,tmp,c.user)
    | .done => (overwrite c.loop.pos size tmp mem,tmp,c.user)

/-- The call after an iteration: on to the next one, or out with the error. -/
def Call.chunk (c : Call β) (mem junk : ℕ → β) (o : Outcome) : Call β :=
  let r := c.move mem junk o
  match o.error with
  | none => ⟨c.req,c.loop.advance,c.inside.advance,r.2.1,r.2.2,c.outcomes ++ [o],none⟩
  | some e => ⟨c.req,c.loop,c.inside,r.2.1,r.2.2,c.outcomes ++ [o],some e⟩

/-- The call as it begins its loop, or as it returns before it (with `-ENOMEM`, or because
the wait for a channel was interrupted). -/
def Call.enter (ram : DmaRam) (r : Request) (user tmp : ℕ → β) (early : Option Errno) : Call β :=
  ⟨r,Loop.start r.pos r.sz,loop_start_at r.fits,tmp,user,[],
    if isAllowed ram r.pos r.sz then early.map Errno.val else some (-EINVAL)⟩

inductive Label (β : Type*)
  | enter (k : ℕ) (r : Request) (user tmp : ℕ → β) (early : Option Errno)
  | chunk (k : ℕ) (o : Outcome) (junk : ℕ → β)
  | leave (k : ℕ)

def Label.call : Label β → ℕ
  | .enter k _ _ _ _ => k
  | .chunk k _ _ => k
  | .leave k => k

def step (ram : DmaRam) (s : State β) : Label β → Option (State β)
  | .enter k r user tmp early =>
    match s.calls k with
    | none => some { s with calls := Function.update s.calls k (Call.enter ram r user tmp early) }
    | some _ => none
  | .chunk k o junk =>
    match s.calls k with
    | none => none
    | some c =>
      if c.ret = none ∧ c.loop.left ≠ 0 then
        some ⟨(c.move s.mem junk o).1,Function.update s.calls k (c.chunk s.mem junk o)⟩
      else none
  | .leave k =>
    match s.calls k with
    | none => none
    | some c =>
      if c.ret = none ∧ c.loop.left = 0 then
        some { s with calls := Function.update s.calls k (some { c with ret := some c.req.sz }) }
      else none

theorem step_enter_some {ram : DmaRam} {s t : State β} {k : ℕ} {r : Request} {user tmp : ℕ → β}
    {early : Option Errno} (h : step ram s (.enter k r user tmp early) = some t) :
    s.calls k = none ∧
      t = { s with calls := Function.update s.calls k (Call.enter ram r user tmp early) } := by
  simp only [step] at h
  split at h
  · rename_i hk
    exact ⟨hk,(Option.some.inj h).symm⟩
  · contradiction

theorem step_chunk_some {ram : DmaRam} {s t : State β} {k : ℕ} {o : Outcome} {junk : ℕ → β}
    (h : step ram s (.chunk k o junk) = some t) :
    ∃ c, s.calls k = some c ∧ c.ret = none ∧ c.loop.left ≠ 0 ∧
      t = ⟨(c.move s.mem junk o).1,Function.update s.calls k (c.chunk s.mem junk o)⟩ := by
  simp only [step] at h
  split at h
  · contradiction
  · rename_i c hk
    split at h
    · rename_i hc
      exact ⟨c,hk,hc.1,hc.2,(Option.some.inj h).symm⟩
    · contradiction

theorem step_leave_some {ram : DmaRam} {s t : State β} {k : ℕ}
    (h : step ram s (.leave k) = some t) :
    ∃ c, s.calls k = some c ∧ c.ret = none ∧ c.loop.left = 0 ∧
      t = { s with
        calls := Function.update s.calls k (some { c with ret := some c.req.sz }) } := by
  simp only [step] at h
  split at h
  · contradiction
  · rename_i c hk
    split at h
    · rename_i hc
      exact ⟨c,hk,hc.1,hc.2,(Option.some.inj h).symm⟩
    · contradiction

/-! ## What a step leaves alone -/

theorem chunk_req (c : Call β) (mem junk : ℕ → β) (o : Outcome) :
    (c.chunk mem junk o).req = c.req := by
  unfold Call.chunk
  cases o.error <;> rfl

theorem chunk_subset_range (c : Call β) :
    Set.Ico c.loop.pos (c.loop.pos + c.loop.size) ⊆ c.req.range := by
  obtain ⟨_,hl,hp⟩ := c.inside
  obtain ⟨_,hs⟩ := loop_size_le c.loop
  exact Set.Ico_subset_Ico (by omega) (by omega)

theorem move_rx {c : Call β} (h : c.req.way = .rx) (mem junk : ℕ → β) (o : Outcome) :
    (c.move mem junk o).1 = mem := by
  unfold Call.move
  rw [h]
  cases o <;> rfl

/-- An iteration keeps the memory outside its chunk, so outside the request. -/
theorem move_outside (c : Call β) (mem junk : ℕ → β) (o : Outcome) {x : ℕ}
    (h : x ∉ Set.Ico c.loop.pos (c.loop.pos + c.loop.size)) : (c.move mem junk o).1 x = mem x := by
  unfold Call.move
  cases c.req.way <;> cases o <;> first | rfl | exact overwrite_outside _ _ h

theorem step_outside_range {ram : DmaRam} {s t : State β} {l : Label β} {c : Call β}
    (hc : s.calls l.call = some c) (he : step ram s l = some t) :
    Set.EqOn t.mem s.mem (c.req.range)ᶜ := by
  intro x hx
  cases l with
  | enter k r user tmp early =>
    obtain ⟨_,rfl⟩ := step_enter_some he
    rfl
  | chunk k o junk =>
    obtain ⟨c',hk,_,_,rfl⟩ := step_chunk_some he
    cases hc.symm.trans hk
    exact move_outside _ _ _ _ (fun hmem => hx (chunk_subset_range _ hmem))
  | leave k =>
    obtain ⟨_,_,_,_,rfl⟩ := step_leave_some he
    rfl

/-- The others keep out of `A`: whoever writes has a range disjoint from it. -/
def Apart (k : ℕ) (A : Set ℕ) (s : State β) (l : Label β) : Prop :=
  l.call ≠ k → ∀ c, s.calls l.call = some c → c.req.way = .tx → Disjoint c.req.range A

/-- A step of another call keeps the bytes of `A`. -/
theorem step_apart {ram : DmaRam} {s t : State β} {l : Label β} {k : ℕ} {A : Set ℕ}
    (hne : l.call ≠ k) (hg : Apart k A s l) (he : step ram s l = some t) :
    Set.EqOn t.mem s.mem A := by
  intro x hx
  cases l with
  | enter j r user tmp early =>
    obtain ⟨_,rfl⟩ := step_enter_some he
    rfl
  | chunk j o junk =>
    obtain ⟨c,hj,_,_,rfl⟩ := step_chunk_some he
    cases hway : c.req.way with
    | rx => exact congrFun (move_rx hway _ _ _) x
    | tx =>
      have hdisj := hg hne c hj hway
      exact move_outside _ _ _ _
        (fun hmem => Set.disjoint_left.mp hdisj (chunk_subset_range _ hmem) hx)
  | leave j =>
    obtain ⟨_,_,_,_,rfl⟩ := step_leave_some he
    rfl

theorem step_calls_other {ram : DmaRam} {s t : State β} {l : Label β} {k : ℕ}
    (hne : l.call ≠ k) (he : step ram s l = some t) : t.calls k = s.calls k := by
  cases l with
  | enter j r user tmp early =>
    obtain ⟨_,rfl⟩ := step_enter_some he
    exact Function.update_of_ne (Ne.symm hne) _ _
  | chunk j o junk =>
    obtain ⟨_,_,_,_,rfl⟩ := step_chunk_some he
    exact Function.update_of_ne (Ne.symm hne) _ _
  | leave j =>
    obtain ⟨_,_,_,_,rfl⟩ := step_leave_some he
    exact Function.update_of_ne (Ne.symm hne) _ _

/-! ## The bytes of a call -/

/-- The bytes of `[pos, pos + u)` are transferred, and those from `w` on are as they were
when the call began, with user buffer `user₀` and device memory `mem₀`. -/
structure Moved (r : Request) (user₀ mem₀ mem user : ℕ → β) (u w : ℕ) : Prop where
  written : r.way = .tx → user = user₀ ∧ (∀ i < u, mem (r.pos + i) = user₀ i) ∧
    ∀ i < r.sz, w ≤ i → mem (r.pos + i) = mem₀ (r.pos + i)
  received : r.way = .rx → Set.EqOn mem mem₀ r.range ∧ (∀ i < u, user i = mem₀ (r.pos + i)) ∧
    ∀ i, w ≤ i → user i = user₀ i

theorem moved_start (r : Request) (user mem : ℕ → β) : Moved r user mem mem user 0 0 where
  written _ := ⟨rfl,by omega,fun _ _ _ => rfl⟩
  received _ := ⟨fun _ _ => rfl,by omega,fun _ _ => rfl⟩

theorem mem_range {r : Request} {i : ℕ} (h : i < r.sz) : r.pos + i ∈ r.range :=
  ⟨Nat.le_add_right _ _,by omega⟩

theorem Moved.congr {r : Request} {user₀ mem₀ mem mem' user : ℕ → β} {u w : ℕ}
    (h : Moved r user₀ mem₀ mem user u w) (hu : u ≤ r.sz) (heq : Set.EqOn mem' mem r.range) :
    Moved r user₀ mem₀ mem' user u w where
  written hway := by
    obtain ⟨huser,hdone,hrest⟩ := h.written hway
    refine ⟨huser,?_,?_⟩
    · intro i hi
      exact (heq (mem_range (by omega))).trans (hdone i hi)
    · intro i hi hw
      exact (heq (mem_range hi)).trans (hrest i hi hw)
  received hway := by
    obtain ⟨hmem,hrest⟩ := h.received hway
    exact ⟨heq.trans hmem,hrest⟩

theorem move_tx_user {c : Call β} (h : c.req.way = .tx) (mem junk : ℕ → β) (o : Outcome) :
    (c.move mem junk o).2.2 = c.user := by
  unfold Call.move
  rw [h]
  cases o <;> rfl

theorem move_rx_beside {c : Call β} (h : c.req.way = .rx) (mem junk : ℕ → β) (o : Outcome) {i : ℕ}
    (hi : i ∉ Set.Ico c.loop.usrBuf (c.loop.usrBuf + c.loop.size)) :
    (c.move mem junk o).2.2 i = c.user i := by
  unfold Call.move
  rw [h]
  cases o <;> first | rfl | exact overwrite_outside _ _ hi

theorem through_tmp {n j lo : ℕ} (g tmp m : ℕ → β) (h : j < n) :
    overwrite lo n (overwrite 0 n g tmp) m (lo + j) = g j := by
  have htmp : overwrite 0 n g tmp (0 + j) = g j := overwrite_inside g tmp h
  rw [Nat.zero_add] at htmp
  rw [overwrite_inside _ _ h,htmp]

theorem move_tx_done {c : Call β} (h : c.req.way = .tx) (mem junk : ℕ → β) {j : ℕ}
    (hj : j < c.loop.size) :
    (c.move mem junk .done).1 (c.loop.pos + j) = c.user (c.loop.usrBuf + j) := by
  unfold Call.move
  rw [h]
  exact through_tmp _ _ _ hj

theorem move_rx_done {c : Call β} (h : c.req.way = .rx) (mem junk : ℕ → β) {j : ℕ}
    (hj : j < c.loop.size) :
    (c.move mem junk .done).2.2 (c.loop.usrBuf + j) = mem (c.loop.pos + j) := by
  unfold Call.move
  rw [h]
  exact through_tmp _ _ _ hj

variable {user₀ mem₀ mem : ℕ → β} {c : Call β}

/-- An iteration, however it ends, touches nothing before its chunk or beyond it. -/
theorem Moved.move (h : Moved c.req user₀ mem₀ mem c.user c.loop.usrBuf c.loop.usrBuf)
    (junk : ℕ → β) (o : Outcome) : Moved c.req user₀ mem₀ (c.move mem junk o).1
      (c.move mem junk o).2.2 c.loop.usrBuf (c.loop.usrBuf + c.loop.size) where
  written hway := by
    obtain ⟨huser,hdone,hrest⟩ := h.written hway
    have hp := c.inside.pos_eq
    have hout : ∀ i, i < c.loop.usrBuf ∨ c.loop.usrBuf + c.loop.size ≤ i →
        (c.move mem junk o).1 (c.req.pos + i) = mem (c.req.pos + i) := by
      intro i hi
      apply move_outside
      rw [Set.mem_Ico]
      omega
    refine ⟨(move_tx_user hway _ _ _).trans huser,?_,?_⟩
    · intro i hi
      exact (hout i (Or.inl hi)).trans (hdone i hi)
    · intro i hi hw
      exact (hout i (Or.inr hw)).trans (hrest i hi (by omega))
  received hway := by
    obtain ⟨hmem,hdone,hrest⟩ := h.received hway
    have hout : ∀ i, i < c.loop.usrBuf ∨ c.loop.usrBuf + c.loop.size ≤ i →
        (c.move mem junk o).2.2 i = c.user i := by
      intro i hi
      apply move_rx_beside hway
      rw [Set.mem_Ico]
      omega
    rw [move_rx hway]
    refine ⟨hmem,?_,?_⟩
    · intro i hi
      exact (hout i (Or.inl hi)).trans (hdone i hi)
    · intro i hw
      exact (hout i (Or.inr hw)).trans (hrest i (by omega))

theorem Moved.done (h : Moved c.req user₀ mem₀ mem c.user c.loop.usrBuf c.loop.usrBuf)
    (junk : ℕ → β) : Moved c.req user₀ mem₀ (c.move mem junk .done).1 (c.move mem junk .done).2.2
      (c.loop.usrBuf + c.loop.size) (c.loop.usrBuf + c.loop.size) := by
  obtain ⟨hwritten,hreceived⟩ := h.move junk .done
  obtain ⟨_,hl,hp⟩ := c.inside
  obtain ⟨_,hs⟩ := loop_size_le c.loop
  constructor
  · intro hway
    obtain ⟨huser,hdone,hrest⟩ := hwritten hway
    refine ⟨huser,?_,hrest⟩
    intro i hi
    by_cases hiu : i < c.loop.usrBuf
    · exact hdone i hiu
    · obtain ⟨j,rfl⟩ := Nat.exists_eq_add_of_le (Nat.not_lt.mp hiu)
      have haddr : c.req.pos + (c.loop.usrBuf + j) = c.loop.pos + j := by omega
      rw [haddr,move_tx_done hway _ _ (by omega),(h.written hway).1]
  · intro hway
    obtain ⟨hmem,hdone,hrest⟩ := hreceived hway
    refine ⟨hmem,?_,hrest⟩
    intro i hi
    by_cases hiu : i < c.loop.usrBuf
    · exact hdone i hiu
    · obtain ⟨j,rfl⟩ := Nat.exists_eq_add_of_le (Nat.not_lt.mp hiu)
      have haddr : c.loop.pos + j = c.req.pos + (c.loop.usrBuf + j) := by omega
      rw [move_rx_done hway _ _ (by omega),haddr]
      exact (h.received hway).1 (mem_range (by omega))

/-- How far a call is: its first `n` chunks are done, and it may have ended. -/
inductive Progress (user₀ mem₀ mem : ℕ → β) (c : Call β) : Prop
  | running (n : ℕ) (hret : c.ret = none) (hout : c.outcomes = List.replicate n .done)
      (hu : c.loop.usrBuf = min (n * AKIDA_DMA_XFER_MAX_SIZE) c.req.sz)
      (hm : Moved c.req user₀ mem₀ mem c.user c.loop.usrBuf c.loop.usrBuf)
  | returned (hret : c.ret = some (c.req.sz : ℤ)) (hu : c.loop.usrBuf = c.req.sz)
      (hm : Moved c.req user₀ mem₀ mem c.user c.loop.usrBuf c.loop.usrBuf)
  | failed (n : ℕ) (o : Outcome) (e : ℤ) (hret : c.ret = some e) (he : o.error = some e)
      (hout : c.outcomes = List.replicate n .done ++ [o])
      (hu : c.loop.usrBuf = n * AKIDA_DMA_XFER_MAX_SIZE) (hlt : c.loop.usrBuf < c.req.sz)
      (hm : Moved c.req user₀ mem₀ mem c.user c.loop.usrBuf (c.loop.usrBuf + c.loop.size))

theorem progress_congr {mem' : ℕ → β} (h : Progress user₀ mem₀ mem c)
    (heq : Set.EqOn mem' mem c.req.range) : Progress user₀ mem₀ mem' c := by
  have hu := c.inside.left_eq
  cases h with
  | running n hret hout hn hm => exact .running n hret hout hn (hm.congr (by omega) heq)
  | returned hret hsz hm => exact .returned hret hsz (hm.congr (by omega) heq)
  | failed n o e hret he hout hn hlt hm =>
    exact .failed n o e hret he hout hn hlt (hm.congr (by omega) heq)

/-- One iteration: done, or the last one. -/
theorem progress_chunk (h : Progress user₀ mem₀ mem c) (hret : c.ret = none)
    (hleft : c.loop.left ≠ 0) (junk : ℕ → β) (o : Outcome) :
    Progress user₀ mem₀ (c.move mem junk o).1 (c.chunk mem junk o) := by
  obtain ⟨n,_,hout,hn,hm⟩ : ∃ n, c.ret = none ∧ c.outcomes = List.replicate n .done ∧
      c.loop.usrBuf = min (n * AKIDA_DMA_XFER_MAX_SIZE) c.req.sz ∧
      Moved c.req user₀ mem₀ mem c.user c.loop.usrBuf c.loop.usrBuf := by
    cases h with
    | running n hret hout hn hm => exact ⟨n,hret,hout,hn,hm⟩
    | returned hret' _ _ => exact absurd (hret.symm.trans hret') (by simp)
    | failed _ _ _ hret' _ _ _ _ _ => exact absurd (hret.symm.trans hret') (by simp)
  have hl := c.inside.left_eq
  have hfull : c.loop.usrBuf = n * AKIDA_DMA_XFER_MAX_SIZE := by omega
  cases ho : o.error with
  | none =>
    cases o with
    | done =>
      apply Progress.running (n+1) (by simp only [Call.chunk,ho])
      · simp only [Call.chunk,ho,hout]
        exact (List.replicate_succ' ..).symm
      · have hsize : c.loop.size = min AKIDA_DMA_XFER_MAX_SIZE c.loop.left := by
          unfold Loop.size
          split <;> omega
        simp only [Call.chunk,ho,Loop.advance,hsize,Nat.succ_mul]
        omega
      · simp only [Call.chunk,ho,Loop.advance]
        exact hm.done junk
    | dmaError e => contradiction
    | fault => contradiction
  | some e =>
    apply Progress.failed n o e
    · simp only [Call.chunk,ho]
    · exact ho
    · simp only [Call.chunk,ho,hout]
    · simp only [Call.chunk,ho]
      exact hfull
    · simp only [Call.chunk,ho]
      omega
    · simp only [Call.chunk,ho]
      exact hm.move junk o

/-- A run keeps the progress of call `k` on its request, whatever the others do. -/
theorem step_progress {ram : DmaRam} {s t : State β} {l : Label β} {k : ℕ} {r : Request}
    (hg : Apart k r.range s l) (he : step ram s l = some t)
    (h : ∃ c, s.calls k = some c ∧ c.req = r ∧ Progress user₀ mem₀ s.mem c) :
    ∃ c, t.calls k = some c ∧ c.req = r ∧ Progress user₀ mem₀ t.mem c := by
  obtain ⟨c,hc,rfl,hp⟩ := h
  by_cases hk : l.call = k
  · cases l with
    | enter j r user tmp early =>
      obtain ⟨hnone,_⟩ := step_enter_some he
      cases hk
      exact absurd (hnone.symm.trans hc) (by simp)
    | chunk j o junk =>
      cases hk
      obtain ⟨c',hc',hret,hleft,rfl⟩ := step_chunk_some he
      cases hc.symm.trans hc'
      exact ⟨_,Function.update_self ..,chunk_req _ _ _ _,progress_chunk hp hret hleft junk o⟩
    | leave j =>
      cases hk
      obtain ⟨c',hc',hret,hleft,rfl⟩ := step_leave_some he
      cases hc.symm.trans hc'
      refine ⟨_,Function.update_self ..,rfl,?_⟩
      have hl := c.inside.left_eq
      cases hp with
      | running n _ _ _ hm => exact .returned rfl (by dsimp only; omega) hm
      | returned hret' _ _ => exact absurd (hret.symm.trans hret') (by simp)
      | failed _ _ _ hret' _ _ _ _ _ => exact absurd (hret.symm.trans hret') (by simp)
  · exact ⟨c,(step_calls_other hk he).trans hc,rfl,progress_congr hp (step_apart hk hg he)⟩

theorem runs_progress {ram : DmaRam} {s s₁ t : State β} {ls : List (Label β)} {k : ℕ} {r : Request}
    {tmp : ℕ → β} (hallowed : isAllowed ram r.pos r.sz = true)
    (he : step ram s (.enter k r user₀ tmp none) = some s₁)
    (hr : Runs (step ram) (Apart k r.range) s₁ ls t) :
    ∃ c, t.calls k = some c ∧ c.req = r ∧ Progress user₀ s.mem t.mem c := by
  apply hr.invariant (I := fun t => ∃ c, t.calls k = some c ∧ c.req = r ∧
    Progress user₀ s.mem t.mem c) (fun _ _ _ h hg he => step_progress hg he h)
  obtain ⟨_,rfl⟩ := step_enter_some he
  refine ⟨_,Function.update_self ..,rfl,.running 0 ?_ rfl ?_ (moved_start r user₀ s.mem)⟩
  · simp only [Call.enter,hallowed,if_true,Option.map_none]
  · simp [Call.enter,Loop.start]

/-- What a call that returned has done. -/
theorem runs_returned {ram : DmaRam} {s s₁ t : State β} {ls : List (Label β)} {k : ℕ} {r : Request}
    {tmp : ℕ → β} {c : Call β} {v : ℤ} (hallowed : isAllowed ram r.pos r.sz = true)
    (he : step ram s (.enter k r user₀ tmp none) = some s₁)
    (hr : Runs (step ram) (Apart k r.range) s₁ ls t) (hc : t.calls k = some c)
    (hret : c.ret = some v) : c.req = r ∧
      ((v = r.sz ∧ c.loop.usrBuf = r.sz ∧ Moved r user₀ s.mem t.mem c.user r.sz r.sz) ∨
      (v < 0 ∧ ∃ n o, c.outcomes = List.replicate n .done ++ [o] ∧ o.error = some v ∧
        c.loop.usrBuf = n * AKIDA_DMA_XFER_MAX_SIZE ∧ c.loop.usrBuf < r.sz ∧
        Moved r user₀ s.mem t.mem c.user c.loop.usrBuf (c.loop.usrBuf + c.loop.size))) := by
  obtain ⟨c',hc',rfl,hp⟩ := runs_progress hallowed he hr
  cases hc.symm.trans hc'
  refine ⟨rfl,?_⟩
  cases hp with
  | running _ hret' _ _ _ => exact absurd (hret.symm.trans hret') (by simp)
  | returned hret' hu hm =>
    rw [hu] at hm
    exact Or.inl ⟨Option.some.inj (hret.symm.trans hret'),hu,hm⟩
  | failed n o e hret' ho hout hu hlt hm =>
    cases hret.symm.trans hret'
    refine Or.inr ⟨?_,n,o,hout,ho,hu,hlt,hm⟩
    cases o with
    | done => contradiction
    | dmaError e => cases ho; exact e.neg
    | fault => cases ho; decide

/-- What the device memory and the buffers hold when the whole request was moved. -/
theorem moved_all {r : Request} {mem₀ user : ℕ → β} (h : Moved r user₀ mem₀ mem user r.sz r.sz) :
    (r.way = .tx → ∀ i < r.sz, mem (r.pos + i) = user₀ i) ∧
    (r.way = .rx → ∀ i < r.sz, user i = mem (r.pos + i) ∧ user i = mem₀ (r.pos + i)) := by
  constructor
  · intro hway
    exact (h.written hway).2.1
  · intro hway i hi
    obtain ⟨hmem,hdone,_⟩ := h.received hway
    exact ⟨(hdone i hi).trans (hmem (mem_range hi)).symm,hdone i hi⟩

/-- Once call `k` has returned, the others keep the bytes of `A`. -/
theorem runs_keep {ram : DmaRam} {s t : State β} {ls : List (Label β)} {k : ℕ} {A : Set ℕ} {v : ℤ}
    (hr : Runs (step ram) (Apart k A) s ls t) (h : ∃ c, s.calls k = some c ∧ c.ret = some v) :
    Set.EqOn t.mem s.mem A := by
  have hrun : (∃ c, t.calls k = some c ∧ c.ret = some v) ∧ Set.EqOn t.mem s.mem A := by
    apply hr.invariant (I := fun t => (∃ c, t.calls k = some c ∧ c.ret = some v) ∧
      Set.EqOn t.mem s.mem A) ?_ ⟨h,fun _ _ => rfl⟩
    rintro s' l t' ⟨⟨c,hc,hret⟩,heq⟩ hg he
    by_cases hk : l.call = k
    · cases l with
      | enter j r user tmp early =>
        obtain ⟨hnone,_⟩ := step_enter_some he
        cases hk
        exact absurd (hnone.symm.trans hc) (by simp)
      | chunk j o junk =>
        cases hk
        obtain ⟨c',hc',hret',_,_⟩ := step_chunk_some he
        cases hc.symm.trans hc'
        exact absurd (hret.symm.trans hret') (by simp)
      | leave j =>
        cases hk
        obtain ⟨c',hc',hret',_,_⟩ := step_leave_some he
        cases hc.symm.trans hc'
        exact absurd (hret.symm.trans hret') (by simp)
    · exact ⟨⟨c,(step_calls_other hk he).trans hc,hret⟩,(step_apart hk hg he).trans heq⟩
  exact hrun.2

/-- The memory semantics of the calls. A call that returns `sz` has moved its whole request
and advanced `*ppos` by `sz`. One that returns an error failed with that error at some chunk
`n`: the `n` chunks before it are transferred and counted, nothing beyond it is touched.
Neither changes a byte outside its request. A read of a range after a write of it returns
the written bytes. -/
theorem readWrite_semantics {ram : DmaRam} {s s₁ t : State β} {ls : List (Label β)} {k : ℕ}
    {r : Request} {tmp : ℕ → β} {c : Call β} {v : ℤ} (hallowed : isAllowed ram r.pos r.sz = true)
    (he : step ram s (.enter k r user₀ tmp none) = some s₁)
    (hr : Runs (step ram) (Apart k r.range) s₁ ls t) (hc : t.calls k = some c)
    (hret : c.ret = some v) :
    (v = r.sz → c.loop.pos = r.pos + r.sz ∧
      (r.way = .tx → ∀ i < r.sz, t.mem (r.pos + i) = user₀ i) ∧
      (r.way = .rx → ∀ i < r.sz, c.user i = t.mem (r.pos + i) ∧ c.user i = s.mem (r.pos + i))) ∧
    (v ≠ r.sz → ∃ n o, c.outcomes = List.replicate n .done ++ [o] ∧ o.error = some v ∧
      n * AKIDA_DMA_XFER_MAX_SIZE < r.sz ∧ c.loop.pos = r.pos + n * AKIDA_DMA_XFER_MAX_SIZE ∧
      (r.way = .tx → (∀ i < n * AKIDA_DMA_XFER_MAX_SIZE, t.mem (r.pos + i) = user₀ i) ∧
        ∀ i < r.sz, (n + 1) * AKIDA_DMA_XFER_MAX_SIZE ≤ i →
          t.mem (r.pos + i) = s.mem (r.pos + i)) ∧
      (r.way = .rx → (∀ i < n * AKIDA_DMA_XFER_MAX_SIZE, c.user i = s.mem (r.pos + i)) ∧
        ∀ i, (n + 1) * AKIDA_DMA_XFER_MAX_SIZE ≤ i → c.user i = user₀ i)) ∧
    (∀ before l after s' t', ls = before ++ l :: after → l.call = k →
      Runs (step ram) (Apart k r.range) s₁ before s' → step ram s' l = some t' →
      Set.EqOn t'.mem s'.mem (r.range)ᶜ ∧ (r.way = .rx → t'.mem = s'.mem)) ∧
    (v = r.sz → r.way = .tx → ∀ ls₁ ls₂ t₁ s₂ t₂ j q user₁ tmp₁ c₂, q.way = .rx →
      q.pos = r.pos → q.sz = r.sz → Runs (step ram) (Apart k r.range) t ls₁ t₁ →
      step ram t₁ (.enter j q user₁ tmp₁ none) = some s₂ →
      Runs (step ram) (Apart j q.range) s₂ ls₂ t₂ → t₂.calls j = some c₂ →
      c₂.ret = some (q.sz : ℤ) → ∀ i < r.sz, c₂.user i = user₀ i) := by
  obtain ⟨rfl,hcases⟩ := runs_returned hallowed he hr hc hret
  have hp := c.inside.pos_eq
  refine ⟨?_,?_,?_,?_⟩
  · intro hv
    rcases hcases with ⟨_,hu,hm⟩ | ⟨hneg,_⟩
    · exact ⟨by omega,moved_all hm⟩
    · omega
  · intro hv
    rcases hcases with ⟨hsz,_⟩ | ⟨_,n,o,hout,ho,hu,hlt,hm⟩
    · exact absurd hsz hv
    · -- the failing chunk ends at the next multiple of the chunk size at the latest
      have hend : c.loop.usrBuf + c.loop.size ≤ (n + 1) * AKIDA_DMA_XFER_MAX_SIZE := by
        rw [hu,Nat.succ_mul]
        exact Nat.add_le_add_left (loop_size_le c.loop).1 _
      rw [hu] at hm hlt hp hend
      refine ⟨n,o,hout,ho,hlt,hp,?_,?_⟩
      · intro hway
        obtain ⟨_,hdone,hrest⟩ := hm.written hway
        exact ⟨hdone,fun i hi hw => hrest i hi (by omega)⟩
      · intro hway
        obtain ⟨_,hdone,hrest⟩ := hm.received hway
        exact ⟨hdone,fun i hw => hrest i (by omega)⟩
  · rintro before l after s' t' rfl hk hbefore hstep
    obtain ⟨c',hc',hreq,_⟩ := runs_progress hallowed he hbefore
    rw [← hk] at hc'
    refine ⟨hreq ▸ step_outside_range hc' hstep,?_⟩
    intro hway
    cases l with
    | enter j r user tmp early =>
      obtain ⟨_,rfl⟩ := step_enter_some hstep
      rfl
    | chunk j o junk =>
      obtain ⟨c'',hc'',_,_,rfl⟩ := step_chunk_some hstep
      cases hc'.symm.trans hc''
      exact move_rx (by rw [hreq]; exact hway) _ _ _
    | leave j =>
      obtain ⟨_,_,_,_,rfl⟩ := step_leave_some hstep
      rfl
  · intro hv htx ls₁ ls₂ t₁ s₂ t₂ j q user₁ tmp₁ c₂ hrx hpos hsz hr₁ he₂ hr₂ hc₂ hret₂ i hi
    have hm : Moved c.req user₀ s.mem t.mem c.user c.req.sz c.req.sz := by
      rcases hcases with ⟨_,_,hm⟩ | ⟨hneg,_⟩
      · exact hm
      · omega
    have hallowed₂ : isAllowed ram q.pos q.sz = true := by rw [hpos,hsz,hallowed]
    obtain ⟨rfl,⟨_,_,hm₂⟩ | ⟨hneg,_⟩⟩ := runs_returned hallowed₂ he₂ hr₂ hc₂ hret₂
    · have hread := ((moved_all hm₂).2 hrx i (by omega)).2
      have hwritten := (moved_all hm).1 htx i hi
      rw [hread,hpos,runs_keep hr₁ ⟨c,hc,hret⟩ (mem_range hi),hwritten]
    · omega

def twoChunks : Request := ⟨.tx,4096,2000,by decide⟩

/-- The state in which call 0 has begun to write the bytes 1, 2, 3, … -/
def begun : State ℕ where
  mem _ := 0
  calls := Function.update (fun _ => none) 0
    (Call.enter defaultRam twoChunks (fun i => i + 1) (fun _ => 0) none)

/-- A write of two chunks. -/
theorem twoChunks_written : ∃ t, exec (step defaultRam) begun
    [.chunk 0 .done (fun _ => 0),.chunk 0 .done (fun _ => 0),.leave 0] = some t ∧
      ∀ i < 2000, t.mem (4096 + i) = i + 1 := by
  have hex : exec (step defaultRam) begun
    [.chunk 0 .done (fun _ => 0),.chunk 0 .done (fun _ => 0),.leave 0] = some _ := rfl
  refine ⟨_,hex,?_⟩
  have hallowed : isAllowed defaultRam twoChunks.pos twoChunks.sz = true := by decide
  have he : step defaultRam ⟨fun _ => 0,fun _ => none⟩
    (.enter 0 twoChunks (fun i => i + 1) (fun _ => 0) none) = some begun := rfl
  have own : ∀ s : State ℕ, ∀ l ∈ [Label.chunk 0 .done (fun _ => 0),.chunk 0 .done (fun _ => 0),
      .leave 0], Apart 0 twoChunks.range s l := by
    intro s l hl hne
    simp only [List.mem_cons,List.not_mem_nil,or_false] at hl
    rcases hl with rfl | rfl | rfl <;> exact absurd rfl hne
  have hr := runs_of_exec (guarded_of_forall own begun) hex
  have h := readWrite_semantics hallowed he hr rfl rfl
  exact (h.1 rfl).2.1 rfl

end AkidaEdma.Driver.DeviceMemory
