import AkidaEdma.Driver.ReadWrite
import AkidaEdma.Engine.HandleInt
import AkidaEdma.Library.Ledger
import AkidaEdma.Library.While

/-! # The interrupt vectors of the engine

`dw_edma_irq_request`: how many vectors go to each direction, and the requests for them. Its
body is the same in both variants of the engine.
-/
namespace AkidaEdma.Probe
open DwEdma HandleInt Ledger

/-- `wr_ch_cnt` and `rd_ch_cnt` of `struct dw_edma`. -/
structure ChCnt where
  wr : ℕ
  rd : ℕ
  deriving DecidableEq, Repr

/-- `tmp`, `*wr_alloc` and `*rd_alloc`. -/
structure IrqAlloc where
  tmp : ℕ
  wr : ℕ
  rd : ℕ
  deriving DecidableEq, Repr

/-- `dw_edma_dec_irq_alloc`, on `*nr_irqs` and `*alloc`. -/
def decIrqAlloc (nrIrqs alloc cnt : ℕ) : ℕ × ℕ :=
  if nrIrqs ≠ 0 ∧ alloc < cnt then (nrIrqs - 1,u32 (alloc + 1)) else (nrIrqs,alloc)

/-- The condition of the distribution loop. -/
def IrqAlloc.more (cnt : ChCnt) (a : IrqAlloc) : Bool :=
  a.tmp != 0 && decide (u32 (a.wr + a.rd) < cnt.wr + cnt.rd)

/-- A round of it. -/
def IrqAlloc.round (cnt : ChCnt) (a : IrqAlloc) : IrqAlloc :=
  let wr := decIrqAlloc a.tmp a.wr cnt.wr
  let rd := decIrqAlloc wr.1 a.rd cnt.rd
  ⟨rd.1,wr.2,rd.2⟩

def distribute (n nrIrqs : ℕ) (cnt : ChCnt) : Option IrqAlloc :=
  While.run (IrqAlloc.more cnt) (IrqAlloc.round cnt) n ⟨nrIrqs,0,0⟩

/-- `dw_edma_add_irq_mask`. -/
def addIrqMask (n mask alloc cnt : ℕ) : Option ℕ :=
  While.run (fun mask => decide (u32 (mask * alloc) < cnt)) (fun mask => u32 (mask + 1)) n mask

/-- The devices that the probe registers: one, or with the older kernel one for each direction. -/
inductive DmaDevice | dma | wrEdma | rdEdma
  deriving DecidableEq, Repr

inductive Resource
  | irq (i : ℕ)
  | dmaDevice (d : DmaDevice)
  deriving DecidableEq, Repr

/-- What the calls out of the probe return; `request` is indexed by the vector. -/
structure Outcomes where
  dwAlloc : Bool
  chanAlloc : Bool
  irqAlloc : Bool
  request : ℕ → ℤ
  register : DmaDevice → ℤ

/-- The requests of the vectors from `i`, `k` of them. -/
structure Requests where
  err : ℤ
  events : List (Event Resource)
  handlers : List Handler
  deriving DecidableEq, Repr

/-- `free_irq` of the vectors below `i`, the last one first. -/
def freeIrqs (i : ℕ) : List (Event Resource) :=
  (List.range i).reverse.map fun i => .release (.irq i)

def requestIrqs (os : Outcomes) (wrAlloc : ℕ) : (k i : ℕ) → Requests
  | 0, _ => ⟨0,[],[]⟩
  | k+1, i =>
    if os.request i ≠ 0 then ⟨os.request i,freeIrqs i,[]⟩
    else
      let r := requestIrqs os wrAlloc k (i+1)
      ⟨r.err,.acquire (.irq i) :: r.events,(if i < wrAlloc then .write else .read) :: r.handlers⟩

/-- What `dw_edma_irq_request` leaves: its result, the calls it made, `dw->nr_irqs`, the two
numbers of vectors, and the handlers by vector. -/
structure IrqReq where
  err : ℤ
  events : List (Event Resource)
  nrIrqs : ℕ
  wrAlloc : ℕ
  rdAlloc : ℕ
  handlers : List Handler
  deriving DecidableEq, Repr

/-- `dw_edma_irq_request`, with the loops bounded by `n` rounds. -/
def irqRequest (n : ℕ) (irqVector : Bool) (nrIrqs : ℕ) (cnt : ChCnt) (os : Outcomes) :
    Option IrqReq :=
  if nrIrqs < 1 ∨ irqVector = false then some ⟨-Driver.EINVAL,[],0,0,0,[]⟩
  else if os.irqAlloc = false then some ⟨-Driver.ENOMEM,[],0,0,0,[]⟩
  else if nrIrqs = 1 then
    if os.request 0 ≠ 0 then some ⟨os.request 0,[],0,0,0,[]⟩
    else some ⟨0,[.acquire (.irq 0)],1,0,0,[.common]⟩
  else
    (distribute n nrIrqs cnt).bind fun a =>
    (addIrqMask n 1 a.wr cnt.wr).bind fun _ =>
    (addIrqMask n 1 a.rd cnt.rd).bind fun _ =>
    let r := requestIrqs os a.wr (a.wr + a.rd) 0
    some ⟨r.err,r.events,if r.err = 0 then a.wr + a.rd else 0,a.wr,a.rd,r.handlers⟩

/-! ## The loops -/

/-- The vectors are neither lost nor made up, and each direction with channels gets one in the
first round. -/
structure IrqAlloc.Sound (nrIrqs : ℕ) (cnt : ChCnt) (a : IrqAlloc) : Prop where
  wr_le : a.wr ≤ cnt.wr
  rd_le : a.rd ≤ cnt.rd
  total : a.tmp + a.wr + a.rd = nrIrqs
  first : a.tmp = nrIrqs ∨ (0 < cnt.wr → 1 ≤ a.wr) ∧ (0 < cnt.rd → 1 ≤ a.rd)

/-- The counts are those of an engine: `u16` values. -/
structure ChCnt.Small (cnt : ChCnt) : Prop where
  wr : cnt.wr < 65536
  rd : cnt.rd < 65536

theorem decIrqAlloc_cases (nrIrqs alloc : ℕ) {cnt : ℕ} (hcnt : cnt < 65536) :
    (nrIrqs ≠ 0 ∧ alloc < cnt ∧ decIrqAlloc nrIrqs alloc cnt = (nrIrqs - 1,alloc + 1)) ∨
    ((nrIrqs = 0 ∨ cnt ≤ alloc) ∧ decIrqAlloc nrIrqs alloc cnt = (nrIrqs,alloc)) := by
  unfold decIrqAlloc
  by_cases h : nrIrqs ≠ 0 ∧ alloc < cnt
  · rw [if_pos h,u32_of_lt (by omega)]
    exact Or.inl ⟨h.1,h.2,rfl⟩
  · rw [if_neg h]
    exact Or.inr ⟨by omega,rfl⟩

theorem more_iff {nrIrqs : ℕ} {cnt : ChCnt} (hsmall : cnt.Small) {a : IrqAlloc}
    (h : a.Sound nrIrqs cnt) : a.more cnt = true ↔ a.tmp ≠ 0 ∧ a.wr + a.rd < cnt.wr + cnt.rd := by
  have hwr := h.wr_le
  have hrd := h.rd_le
  have hwr' := hsmall.wr
  have hrd' := hsmall.rd
  simp only [IrqAlloc.more,Bool.and_eq_true,bne_iff_ne,decide_eq_true_eq]
  rw [u32_of_lt (by omega)]

theorem round_sound {nrIrqs : ℕ} {cnt : ChCnt} (hsmall : cnt.Small) (hnr : 2 ≤ nrIrqs)
    {a : IrqAlloc} (h : a.Sound nrIrqs cnt) (hmore : a.more cnt = true) :
    (a.round cnt).Sound nrIrqs cnt ∧ (a.round cnt).tmp < a.tmp := by
  obtain ⟨htmp,hlt⟩ := (more_iff hsmall h).mp hmore
  obtain ⟨hwr,hrd,htotal,hfirst⟩ := h
  rcases decIrqAlloc_cases a.tmp a.wr hsmall.wr with
    ⟨_,hwlt,hw⟩ | ⟨hwge,hw⟩
  · rcases decIrqAlloc_cases (a.tmp - 1) a.rd hsmall.rd with
      ⟨_,hrlt,hr⟩ | ⟨hrge,hr⟩
    · have he : a.round cnt = ⟨a.tmp - 1 - 1,a.wr + 1,a.rd + 1⟩ := by
        simp only [IrqAlloc.round,hw,hr]
      rw [he]
      exact ⟨⟨hwlt,hrlt,by dsimp only; omega,Or.inr ⟨by simp,by simp⟩⟩,by dsimp only; omega⟩
    · have he : a.round cnt = ⟨a.tmp - 1,a.wr + 1,a.rd⟩ := by simp only [IrqAlloc.round,hw,hr]
      rw [he]
      refine ⟨⟨hwlt,hrd,by dsimp only; omega,Or.inr ⟨by simp,?_⟩⟩,by dsimp only; omega⟩
      intro hcnt
      dsimp only
      -- no vector was left for this direction only if it was not the first round
      rcases hfirst with hfirst | ⟨_,hfirst⟩
      · omega
      · exact hfirst hcnt
  · rcases decIrqAlloc_cases a.tmp a.rd hsmall.rd with
      ⟨_,hrlt,hr⟩ | ⟨hrge,hr⟩
    · have he : a.round cnt = ⟨a.tmp - 1,a.wr,a.rd + 1⟩ := by simp only [IrqAlloc.round,hw,hr]
      rw [he]
      exact ⟨⟨hwr,hrlt,by dsimp only; omega,Or.inr ⟨fun _ => by dsimp only; omega,by simp⟩⟩,
        by dsimp only; omega⟩
    · omega

/-- The loop ends with every vector given away, or one for each channel. -/
theorem distribute_ends {nrIrqs : ℕ} {cnt : ChCnt} (hsmall : cnt.Small) (hnr : 2 ≤ nrIrqs)
    (hcnt : 0 < cnt.wr + cnt.rd) {n : ℕ} (hn : nrIrqs ≤ n) : ∃ a, distribute n nrIrqs cnt = some a ∧
      a.wr ≤ cnt.wr ∧ a.rd ≤ cnt.rd ∧ a.wr + a.rd = min nrIrqs (cnt.wr + cnt.rd) ∧
      (0 < cnt.wr → 1 ≤ a.wr) ∧ (0 < cnt.rd → 1 ≤ a.rd) := by
  have hstart : IrqAlloc.Sound nrIrqs cnt ⟨nrIrqs,0,0⟩ :=
    ⟨Nat.zero_le _,Nat.zero_le _,rfl,Or.inl rfl⟩
  obtain ⟨a,ha⟩ : ∃ a, distribute n nrIrqs cnt = some a := While.run_ends
    (I := IrqAlloc.Sound nrIrqs cnt)
    (fun s hs hc => (round_sound hsmall hnr hs hc).1) IrqAlloc.tmp
    (fun s hs hc => (round_sound hsmall hnr hs hc).2) hstart hn
  obtain ⟨hsound,hdone⟩ := While.run_invariant (I := IrqAlloc.Sound nrIrqs cnt)
    (fun s hs hc => (round_sound hsmall hnr hs hc).1) hstart ha
  have hover : ¬ (a.tmp ≠ 0 ∧ a.wr + a.rd < cnt.wr + cnt.rd) := by
    rw [← more_iff hsmall hsound,hdone]
    decide
  obtain ⟨hwr,hrd,htotal,hfirst⟩ := hsound
  refine ⟨a,ha,hwr,hrd,by omega,?_⟩
  rcases hfirst with hfirst | hfirst
  · omega
  · exact hfirst

/-- The mask loop ends, since the direction has a vector if it has channels. -/
theorem addIrqMask_ends {alloc cnt : ℕ} (hcnt : cnt < 65536) (hle : alloc ≤ cnt)
    (halloc : 0 < cnt → 1 ≤ alloc) {n : ℕ} (hn : cnt ≤ n) : ∃ m, addIrqMask n 1 alloc cnt = some m := by
  have hround : ∀ m, m ≤ 65536 → decide (u32 (m * alloc) < cnt) = true → m < cnt := by
    intro m hm hc
    have hlt := of_decide_eq_true hc
    have hpos : 1 ≤ alloc := halloc (by omega)
    have hprod : m * alloc ≤ 65536 * 65535 := Nat.mul_le_mul hm (by omega)
    rw [u32_of_lt (by omega)] at hlt
    exact Nat.lt_of_le_of_lt (Nat.le_mul_of_pos_right m hpos) hlt
  refine While.run_ends (I := fun m => m ≤ 65536) ?_ (fun m => cnt - m) ?_ (by decide) (by omega)
  · intro m hm hc
    have hlt := hround m hm hc
    rw [u32_of_lt (by omega)]
    omega
  · intro m hm hc
    have hlt := hround m hm hc
    rw [u32_of_lt (by omega)]
    omega

/-! ## The requests -/

/-- The requests of the vectors from `i`, up to the first that fails. -/
def requested (i k : ℕ) : List (Event Resource) := (List.range' i k).map fun j => .acquire (.irq j)

/-- The vectors are requested in order; a failure frees the ones before it. -/
theorem requestIrqs_cases (os : Outcomes) (wrAlloc k i : ℕ) :
    ((∀ j, i ≤ j → j < i + k → os.request j = 0) ∧ requestIrqs os wrAlloc k i =
      ⟨0,requested i k,(List.range' i k).map fun j => if j < wrAlloc then .write else .read⟩) ∨
    ∃ j, j < k ∧ os.request (i + j) ≠ 0 ∧ (requestIrqs os wrAlloc k i).err = os.request (i + j) ∧
      (requestIrqs os wrAlloc k i).events = requested i j ++ freeIrqs (i + j) := by
  induction k generalizing i with
  | zero => exact Or.inl ⟨fun j hj hlt => by omega,rfl⟩
  | succ k ih =>
    by_cases hfail : os.request i ≠ 0
    · have he : requestIrqs os wrAlloc (k+1) i = ⟨os.request i,freeIrqs i,[]⟩ := by
        rw [requestIrqs,if_pos hfail]
      exact Or.inr ⟨0,Nat.succ_pos k,hfail,by rw [he]; rfl,by rw [he]; rfl⟩
    · have he : requestIrqs os wrAlloc (k+1) i =
          ⟨(requestIrqs os wrAlloc k (i+1)).err,
            .acquire (.irq i) :: (requestIrqs os wrAlloc k (i+1)).events,
            (if i < wrAlloc then .write else .read) ::
              (requestIrqs os wrAlloc k (i+1)).handlers⟩ := by rw [requestIrqs,if_neg hfail]
      rw [not_not] at hfail
      rcases ih (i+1) with ⟨hall,hrest⟩ | ⟨j,hj,hne,herr,hev⟩
      · left
        refine ⟨fun j hij hlt => ?_,by rw [he,hrest]; rfl⟩
        rcases Nat.eq_or_lt_of_le hij with rfl | hij
        · exact hfail
        · exact hall j hij (by omega)
      · right
        have hadd : i + 1 + j = i + (j + 1) := by omega
        rw [hadd] at hne herr hev
        exact ⟨j + 1,by omega,hne,by rw [he]; exact herr,by rw [he,hev]; rfl⟩

theorem requested_zero (k : ℕ) :
    requested 0 k = ((List.range k).map Resource.irq).map .acquire := by
  rw [requested,List.map_map,List.range_eq_range']
  rfl

theorem freeIrqs_eq (k : ℕ) :
    freeIrqs k = ((List.range k).map Resource.irq).reverse.map .release := by
  rw [freeIrqs,← List.map_reverse,List.map_map]
  rfl

theorem irqs_nodup (k : ℕ) : ((List.range k).map Resource.irq).Nodup :=
  (List.nodup_range).map fun _ _ h => Resource.irq.inj h

/-- A history that frees exactly what it acquires, each resource once. -/
structure Unwound (es : List (Event Resource)) : Prop where
  none_held : exec ∅ es = some ∅
  once : (acquired es).Nodup

theorem unwound_nil : Unwound [] := ⟨rfl,List.nodup_nil⟩

theorem unwound_requested (k : ℕ) : Unwound (requested 0 k ++ freeIrqs k) := by
  rw [requested_zero,freeIrqs_eq]
  refine ⟨?_,?_⟩
  · exact exec_balanced (irqs_nodup k) (List.reverse_perm _) ∅ fun _ _ h => by contradiction
  · rw [acquired_append,acquired_acquire,acquired_release,List.append_nil]
    exact irqs_nodup k

/-- What comes back from `dw_edma_irq_request`: an error with nothing held, or vectors from 0. -/
theorem irqRequest_cases {n nrIrqs : ℕ} {irqVector : Bool} {cnt : ChCnt} {os : Outcomes} {q : IrqReq}
    (h : irqRequest n irqVector nrIrqs cnt os = some q) :
    (q.err ≠ 0 ∧ Unwound q.events) ∨ (q.err = 0 ∧ q.events = requested 0 q.nrIrqs) := by
  unfold irqRequest at h
  split at h
  · cases h
    exact Or.inl ⟨by decide,unwound_nil⟩
  split at h
  · cases h
    exact Or.inl ⟨by decide,unwound_nil⟩
  split at h
  · split at h
    · rename_i hfail
      cases h
      exact Or.inl ⟨hfail,unwound_nil⟩
    · cases h
      exact Or.inr ⟨rfl,rfl⟩
  · obtain ⟨a,_,h⟩ := Option.bind_eq_some_iff.mp h
    obtain ⟨_,_,h⟩ := Option.bind_eq_some_iff.mp h
    obtain ⟨_,_,h⟩ := Option.bind_eq_some_iff.mp h
    cases h
    rcases requestIrqs_cases os a.wr (a.wr + a.rd) 0 with ⟨_,he⟩ | ⟨j,_,hne,herr,hev⟩
    · right
      simp only [he,if_true,and_self]
    · left
      rw [Nat.zero_add] at hne herr hev
      dsimp only
      rw [herr,hev]
      exact ⟨hne,unwound_requested j⟩

/-! ## The distribution -/

/-- The requests of the first `k` vectors are granted. -/
structure Outcomes.Granted (os : Outcomes) (k : ℕ) : Prop where
  alloc : os.irqAlloc = true
  request : ∀ i < k, os.request i = 0

/-- The vectors after a request without failure. -/
structure Distributed (nrIrqs : ℕ) (cnt : ChCnt) (q : IrqReq) : Prop where
  err : q.err = 0
  number : q.nrIrqs = min nrIrqs (cnt.wr + cnt.rd)
  events : q.events = requested 0 q.nrIrqs
  handlers : q.handlers.length = q.nrIrqs
  share : 2 ≤ nrIrqs → q.wrAlloc + q.rdAlloc = q.nrIrqs ∧ q.wrAlloc ≤ cnt.wr ∧ q.rdAlloc ≤ cnt.rd ∧
    (0 < cnt.wr → 1 ≤ q.wrAlloc) ∧ (0 < cnt.rd → 1 ≤ q.rdAlloc)
  handler : ∀ v h, q.handlers[v]? = some h →
    h = if nrIrqs = 1 then .common else if v < q.wrAlloc then .write else .read

/-- A bound that no loop of the request reaches. -/
structure Enough (n nrIrqs : ℕ) (cnt : ChCnt) : Prop where
  irqs : nrIrqs ≤ n
  wr : cnt.wr ≤ n
  rd : cnt.rd ≤ n

theorem enough_max (nrIrqs : ℕ) (cnt : ChCnt) : Enough (max nrIrqs (max cnt.wr cnt.rd)) nrIrqs cnt :=
  ⟨by omega,by omega,by omega⟩

/-- With more than one vector, the request is the loop of the requests. -/
theorem irqRequest_many {n nrIrqs : ℕ} {cnt : ChCnt} (hn : Enough n nrIrqs cnt) (hnr : 2 ≤ nrIrqs)
    (hcnt : 0 < cnt.wr + cnt.rd) (hsmall : cnt.Small) : ∃ a : IrqAlloc,
      a.wr ≤ cnt.wr ∧ a.rd ≤ cnt.rd ∧ a.wr + a.rd = min nrIrqs (cnt.wr + cnt.rd) ∧
      (0 < cnt.wr → 1 ≤ a.wr) ∧ (0 < cnt.rd → 1 ≤ a.rd) ∧
      ∀ os : Outcomes, os.irqAlloc = true → irqRequest n true nrIrqs cnt os =
        some ⟨(requestIrqs os a.wr (a.wr + a.rd) 0).err,
          (requestIrqs os a.wr (a.wr + a.rd) 0).events,
          if (requestIrqs os a.wr (a.wr + a.rd) 0).err = 0 then a.wr + a.rd else 0,a.wr,a.rd,
          (requestIrqs os a.wr (a.wr + a.rd) 0).handlers⟩ := by
  obtain ⟨a,ha,hwr,hrd,hsum,hwpos,hrpos⟩ := distribute_ends hsmall hnr hcnt hn.irqs
  obtain ⟨mw,hmw⟩ := addIrqMask_ends hsmall.wr hwr hwpos hn.wr
  obtain ⟨mr,hmr⟩ := addIrqMask_ends hsmall.rd hrd hrpos hn.rd
  refine ⟨a,hwr,hrd,hsum,hwpos,hrpos,fun os halloc => ?_⟩
  have hlow : ¬ (nrIrqs < 1 ∨ true = false) := by
    rintro (h | h)
    · omega
    · contradiction
  have hfail : ¬ (os.irqAlloc = false) := by simp [halloc]
  rw [irqRequest,if_neg hlow,if_neg hfail,if_neg (by omega),ha,Option.bind_some,hmw,
    Option.bind_some,hmr,Option.bind_some]

theorem irqRequest_returns {n nrIrqs : ℕ} {cnt : ChCnt} (hn : Enough n nrIrqs cnt)
    (hcnt : 0 < cnt.wr + cnt.rd) (hsmall : cnt.Small) (irqVector : Bool) (os : Outcomes) :
    ∃ q, irqRequest n irqVector nrIrqs cnt os = some q := by
  by_cases hlow : nrIrqs < 1 ∨ irqVector = false
  · exact ⟨_,if_pos hlow⟩
  rw [not_or,Bool.not_eq_false] at hlow
  obtain ⟨hnr,rfl⟩ := hlow
  by_cases halloc : os.irqAlloc = true
  · by_cases hone : nrIrqs = 1
    · subst hone
      by_cases hreq : os.request 0 = 0
      · exact ⟨⟨0,[.acquire (.irq 0)],1,0,0,[.common]⟩,by simp [irqRequest,halloc,hreq]⟩
      · exact ⟨⟨os.request 0,[],0,0,0,[]⟩,by simp [irqRequest,halloc,hreq]⟩
    · obtain ⟨a,_,_,_,_,_,hmany⟩ := irqRequest_many hn (by omega) hcnt hsmall
      exact ⟨_,hmany os halloc⟩
  · exact ⟨⟨-Driver.ENOMEM,[],0,0,0,[]⟩,by simp [irqRequest,halloc,hnr]⟩

theorem requestIrqs_granted {os : Outcomes} {k : ℕ} (hos : os.Granted k) (wrAlloc : ℕ) :
    requestIrqs os wrAlloc k 0 = ⟨0,requested 0 k,
      (List.range' 0 k).map fun j => if j < wrAlloc then .write else .read⟩ := by
  rcases requestIrqs_cases os wrAlloc k 0 with ⟨_,he⟩ | ⟨j,hj,hne,_⟩
  · exact he
  · rw [Nat.zero_add] at hne
    exact absurd (hos.request j hj) hne

theorem irqRequest_distributed {n nrIrqs : ℕ} {cnt : ChCnt} (hn : Enough n nrIrqs cnt)
    (hnr : 1 ≤ nrIrqs) (hcnt : 0 < cnt.wr + cnt.rd) (hsmall : cnt.Small) {os : Outcomes}
    (hos : os.Granted (min nrIrqs (cnt.wr + cnt.rd))) :
    ∃ q, irqRequest n true nrIrqs cnt os = some q ∧ Distributed nrIrqs cnt q := by
  by_cases hone : nrIrqs = 1
  · subst hone
    have hfirst : os.request 0 = 0 := hos.request 0 (by omega)
    refine ⟨⟨0,[.acquire (.irq 0)],1,0,0,[.common]⟩,?_,?_⟩
    · simp [irqRequest,hos.alloc,hfirst]
    · refine ⟨rfl,by dsimp only; omega,rfl,rfl,by omega,?_⟩
      intro v h hv
      cases v with
      | zero =>
        cases hv
        rfl
      | succ v => contradiction
  · obtain ⟨a,hwr,hrd,hsum,hwpos,hrpos,hmany⟩ := irqRequest_many hn (by omega) hcnt hsmall
    rw [← hsum] at hos
    refine ⟨_,hmany os hos.alloc,?_⟩
    rw [requestIrqs_granted hos]
    refine ⟨rfl,hsum,rfl,by simp,fun _ => ⟨rfl,hwr,hrd,hwpos,hrpos⟩,?_⟩
    intro v h hv
    rw [List.getElem?_map] at hv
    obtain ⟨i,hi,rfl⟩ := Option.map_eq_some_iff.mp hv
    have hlt := (List.getElem?_eq_some_iff.mp hi).1
    rw [List.length_range'] at hlt
    rw [List.getElem?_range' hlt,Nat.zero_add,Nat.one_mul] at hi
    rw [if_neg hone,Option.some.inj hi]

/-- The request comes back without an error only if all of it was granted. -/
theorem irqRequest_granted {n nrIrqs : ℕ} {cnt : ChCnt} (hn : Enough n nrIrqs cnt)
    (hcnt : 0 < cnt.wr + cnt.rd) (hsmall : cnt.Small) {irqVector : Bool} {os : Outcomes} {q : IrqReq}
    (h : irqRequest n irqVector nrIrqs cnt os = some q) (hok : q.err = 0) :
    irqVector = true ∧ 1 ≤ nrIrqs ∧ os.Granted (min nrIrqs (cnt.wr + cnt.rd)) := by
  by_cases hlow : nrIrqs < 1 ∨ irqVector = false
  · rw [irqRequest,if_pos hlow] at h
    cases h
    contradiction
  rw [not_or,Bool.not_eq_false] at hlow
  obtain ⟨hnr,rfl⟩ := hlow
  by_cases halloc : os.irqAlloc = true
  · refine ⟨rfl,by omega,halloc,?_⟩
    by_cases hone : nrIrqs = 1
    · subst hone
      by_cases hreq : os.request 0 = 0
      · intro i hi
        rw [show i = 0 by omega]
        exact hreq
      · simp [irqRequest,halloc,hreq] at h
        subst h
        contradiction
    · obtain ⟨a,_,_,hsum,_,_,hmany⟩ := irqRequest_many hn (by omega) hcnt hsmall
      rw [hmany os halloc] at h
      cases h
      rcases requestIrqs_cases os a.wr (a.wr + a.rd) 0 with ⟨hall,_⟩ | ⟨j,_,hne,herr,_⟩
      · rw [← hsum]
        exact fun i hi => hall i (Nat.zero_le i) (by omega)
      · rw [← herr] at hne
        exact absurd hok hne
  · simp [irqRequest,halloc,hnr] at h
    subst h
    contradiction

end AkidaEdma.Probe
