import AkidaEdma.Driver.Layout
import AkidaEdma.Engine.Interrupts
import AkidaEdma.Probe.IrqRequest
import Mathlib.Data.Int.CardIntervalMod

/-! # The channels and their vectors

`dw_edma_channel_setup` of the engine and of its variant for older kernels, which goes through
the write and the read channels in two calls: the number, the direction, the list size and the
vector of each channel, and the channel masks of the vectors.
-/
namespace AkidaEdma.Probe
open DwEdma HandleInt

/-- What the setup gives a channel; `pos` is the index of its vector in `dw->irq`. -/
structure ChanSetup where
  id : ℕ
  dir : Dir
  llMax : ℕ
  pos : ℕ
  deriving DecidableEq, Repr

/-- `dw->chan` as far as it is set up, and `dw->irq`. -/
structure Setup where
  chan : List ChanSetup
  irq : ℕ → DwIrq

def Setup.init : Setup := ⟨[],fun _ => ⟨0#32,0#32⟩⟩

/-- `|= BIT(id)` of the mask of a direction. -/
def setBit (dir : Dir) (id : ℕ) (irq : DwIrq) : DwIrq :=
  match dir with
  | .write => { irq with wrMask := irq.wrMask ||| V0Core.bit id }
  | .read => { irq with rdMask := irq.rdMask ||| V0Core.bit id }

def Setup.push (st : Setup) (c : ChanSetup) : Setup where
  chan := st.chan ++ [c]
  irq := Function.update st.irq c.pos (setBit c.dir c.id (st.irq c.pos))

/-- The rest of a round once `pos` is known; `dw->irq` has `entries` of them. -/
def Setup.add (chip : Chip) (entries : ℕ) (dir : Dir) (id pos : ℕ) (st : Setup) : Option Setup :=
  if pos < entries then
    some (st.push ⟨id,dir,Driver.llMax (Driver.llRegion chip dir id),pos⟩)
  else none

/-- The remainder, which there is none of by zero. -/
def rem (a b : ℕ) : Option ℕ := if b = 0 then none else some (a % b)

/-- A round of the loop of `dw_edma_channel_setup`. -/
def setupRound (chip : Chip) (entries : ℕ) (cnt : ChCnt) (q : IrqReq) (st : Setup) (i : ℕ) :
    Option Setup :=
  let c : Dir × ℕ := if i < cnt.wr then (.write,i) else (.read,i - cnt.wr)
  let pos :=
    if q.nrIrqs = 1 then some 0
    else if c.1 = .write then rem c.2 q.wrAlloc
    else (rem c.2 q.rdAlloc).map (q.wrAlloc + ·)
  pos.bind fun pos => st.add chip entries c.1 c.2 pos

/-- The loop of `dw_edma_channel_setup`. -/
def channelSetup (chip : Chip) (entries : ℕ) (cnt : ChCnt) (q : IrqReq) : Option Setup :=
  (List.range (cnt.wr + cnt.rd)).foldlM (setupRound chip entries cnt q) Setup.init

/-- A round of the loop of the variant. -/
def setupRound54 (chip : Chip) (entries : ℕ) (write : Bool) (alloc offAlloc : ℕ) (q : IrqReq)
    (st : Setup) (j : ℕ) : Option Setup :=
  let pos := if q.nrIrqs = 1 then some 0 else (rem j alloc).map (offAlloc + ·)
  pos.bind fun pos => st.add chip entries (if write then .write else .read) j pos

/-- The loop of the variant for one direction. -/
def channelSetup54 (chip : Chip) (entries : ℕ) (cnt : ChCnt) (q : IrqReq) (write : Bool)
    (st : Setup) : Option Setup :=
  let n := if write then cnt.wr else cnt.rd
  let alloc := if write then q.wrAlloc else q.rdAlloc
  let offAlloc := if write then 0 else q.wrAlloc
  if alloc ≠ 0 ∨ q.nrIrqs = 1 then
    (List.range n).foldlM (setupRound54 chip entries write alloc offAlloc q) st
  else some st

/-! ## The channels -/

/-- A channel as both variants set it up. -/
def chanOf (chip : Chip) (q : IrqReq) (dir : Dir) (id : ℕ) : ChanSetup :=
  ⟨id,dir,Driver.llMax (Driver.llRegion chip dir id),irqPos q.nrIrqs q.wrAlloc q.rdAlloc dir id⟩

def ChCnt.total (cnt : ChCnt) : Dir → ℕ
  | .write => cnt.wr
  | .read => cnt.rd

def chansOf (chip : Chip) (cnt : ChCnt) (q : IrqReq) (dir : Dir) : List ChanSetup :=
  (List.range (cnt.total dir)).map (chanOf chip q dir)

/-- A direction with channels has a vector, and the vectors are those of `dw->irq`. -/
structure Routable (entries : ℕ) (cnt : ChCnt) (q : IrqReq) : Prop where
  one : q.nrIrqs = 1 → 1 ≤ entries
  wr : q.nrIrqs ≠ 1 → 0 < cnt.wr → 1 ≤ q.wrAlloc
  rd : q.nrIrqs ≠ 1 → 0 < cnt.rd → 1 ≤ q.rdAlloc
  entries_le : q.nrIrqs ≠ 1 → q.wrAlloc + q.rdAlloc ≤ entries

theorem rem_of_pos {a b : ℕ} (h : 1 ≤ b) : rem a b = some (a % b) := if_neg (by omega)

theorem add_of_lt {chip : Chip} {entries pos : ℕ} {dir : Dir} {id : ℕ} (h : pos < entries)
    (st : Setup) : st.add chip entries dir id pos =
      some (st.push ⟨id,dir,Driver.llMax (Driver.llRegion chip dir id),pos⟩) := if_pos h

theorem irqPos_lt {entries : ℕ} {cnt : ChCnt} {q : IrqReq} (h : Routable entries cnt q)
    (dir : Dir) {id : ℕ} (hid : id < cnt.total dir) :
    irqPos q.nrIrqs q.wrAlloc q.rdAlloc dir id < entries := by
  cases dir with
  | write =>
    simp only [irqPos]
    split
    · rename_i hone
      exact h.one hone
    · rename_i hone
      have hpos := h.wr hone (Nat.zero_lt_of_lt hid)
      have hmod := Nat.mod_lt id hpos
      have hle := h.entries_le hone
      omega
  | read =>
    simp only [irqPos]
    split
    · rename_i hone
      exact h.one hone
    · rename_i hone
      have hpos := h.rd hone (Nat.zero_lt_of_lt hid)
      have hmod := Nat.mod_lt id hpos
      have hle := h.entries_le hone
      omega

theorem setupRound54_eq {chip : Chip} {entries : ℕ} {cnt : ChCnt} {q : IrqReq}
    (h : Routable entries cnt q) (write : Bool) {j : ℕ}
    (hj : j < cnt.total (if write then .write else .read)) (st : Setup) :
    setupRound54 chip entries write (if write then q.wrAlloc else q.rdAlloc)
        (if write then 0 else q.wrAlloc) q st j =
      some (st.push (chanOf chip q (if write then .write else .read) j)) := by
  have hlt := irqPos_lt h _ hj
  have hpos : (if q.nrIrqs = 1 then some 0
        else (rem j (if write then q.wrAlloc else q.rdAlloc)).map ((if write then 0 else q.wrAlloc) + ·)) =
      some (irqPos q.nrIrqs q.wrAlloc q.rdAlloc (if write then .write else .read) j) := by
    by_cases hone : q.nrIrqs = 1
    · cases write <;> simp [irqPos,hone]
    · cases write with
      | false => simp [irqPos,hone,rem_of_pos (h.rd hone (Nat.zero_lt_of_lt hj))]
      | true => simp [irqPos,hone,rem_of_pos (h.wr hone (Nat.zero_lt_of_lt hj))]
  rw [setupRound54,hpos,Option.bind_some,add_of_lt hlt]
  rfl

theorem setupRound_write {chip : Chip} {entries : ℕ} {cnt : ChCnt} {q : IrqReq}
    (h : Routable entries cnt q) {i : ℕ} (hi : i < cnt.wr) (st : Setup) :
    setupRound chip entries cnt q st i = some (st.push (chanOf chip q .write i)) := by
  have hlt := irqPos_lt h .write hi
  have hpos : (if q.nrIrqs = 1 then some 0 else rem i q.wrAlloc) =
      some (irqPos q.nrIrqs q.wrAlloc q.rdAlloc .write i) := by
    by_cases hone : q.nrIrqs = 1
    · simp [irqPos,hone]
    · simp [irqPos,hone,rem_of_pos (h.wr hone (Nat.zero_lt_of_lt hi))]
  simp only [setupRound,if_pos hi,if_true,hpos,Option.bind_some,add_of_lt hlt]
  rfl

theorem setupRound_read {chip : Chip} {entries : ℕ} {cnt : ChCnt} {q : IrqReq}
    (h : Routable entries cnt q) {j : ℕ} (hj : j < cnt.rd) (st : Setup) :
    setupRound chip entries cnt q st (cnt.wr + j) = some (st.push (chanOf chip q .read j)) := by
  have hlt := irqPos_lt h .read hj
  have hpos : (if q.nrIrqs = 1 then some 0 else (rem j q.rdAlloc).map (q.wrAlloc + ·)) =
      some (irqPos q.nrIrqs q.wrAlloc q.rdAlloc .read j) := by
    by_cases hone : q.nrIrqs = 1
    · simp [irqPos,hone]
    · simp [irqPos,hone,rem_of_pos (h.rd hone (Nat.zero_lt_of_lt hj))]
  have hge : ¬ (cnt.wr + j < cnt.wr) := by omega
  simp only [setupRound,if_neg hge,Nat.add_sub_cancel_left,reduceCtorEq,if_false,hpos,
    Option.bind_some,add_of_lt hlt]
  rfl

theorem foldlM_push {round : Setup → ℕ → Option Setup} {f : ℕ → ChanSetup} {is : List ℕ}
    (h : ∀ i ∈ is, ∀ st, round st i = some (st.push (f i))) (st : Setup) :
    is.foldlM round st = some ((is.map f).foldl Setup.push st) := by
  induction is generalizing st with
  | nil => rfl
  | cons i is ih =>
    rw [List.foldlM_cons,h i List.mem_cons_self]
    exact ih (fun j hj => h j (List.mem_cons_of_mem i hj)) _

/-- What both variants set up. -/
def setupOf (chip : Chip) (cnt : ChCnt) (q : IrqReq) : Setup :=
  (chansOf chip cnt q .write ++ chansOf chip cnt q .read).foldl Setup.push Setup.init

theorem channelSetup_eq {entries : ℕ} {cnt : ChCnt} {q : IrqReq} (h : Routable entries cnt q)
    (chip : Chip) : channelSetup chip entries cnt q = some (setupOf chip cnt q) := by
  have hwr : ∀ st, (List.range cnt.wr).foldlM (setupRound chip entries cnt q) st =
      some ((chansOf chip cnt q .write).foldl Setup.push st) :=
    foldlM_push fun i hi st => setupRound_write h (List.mem_range.mp hi) st
  have hrd : ∀ st, ((List.range cnt.rd).map (cnt.wr + ·)).foldlM (setupRound chip entries cnt q) st =
      some ((chansOf chip cnt q .read).foldl Setup.push st) := by
    intro st
    rw [List.foldlM_map]
    exact foldlM_push (fun j hj st => setupRound_read h (List.mem_range.mp hj) st) st
  rw [channelSetup,List.range_add,List.foldlM_append,hwr,setupOf,List.foldl_append]
  exact hrd _

theorem channelSetup54_eq {entries : ℕ} {cnt : ChCnt} {q : IrqReq} (h : Routable entries cnt q)
    (chip : Chip) (write : Bool) (st : Setup) :
    channelSetup54 chip entries cnt q write st =
      some ((chansOf chip cnt q (if write then .write else .read)).foldl Setup.push st) := by
  have htotal : (if write then cnt.wr else cnt.rd) = cnt.total (if write then .write else .read) := by
    cases write <;> rfl
  by_cases hany : (if write then q.wrAlloc else q.rdAlloc) ≠ 0 ∨ q.nrIrqs = 1
  · refine (if_pos hany).trans ?_
    rw [htotal]
    exact foldlM_push (fun j hj st => setupRound54_eq h write (List.mem_range.mp hj) st) st
  · refine (if_neg hany).trans ?_
    rw [not_or,not_not] at hany
    -- a direction without vectors has no channels
    have hzero : cnt.total (if write then .write else .read) = 0 := by
      apply Nat.eq_zero_of_not_pos
      intro hpos
      cases write with
      | false => exact absurd hany.1 (Nat.ne_of_gt (h.rd hany.2 hpos))
      | true => exact absurd hany.1 (Nat.ne_of_gt (h.wr hany.2 hpos))
    rw [chansOf,hzero]
    rfl

/-! ## The masks -/

theorem bit_getLsbD {i id : ℕ} (hi : i < 32) : (V0Core.bit id).getLsbD i = decide (i = id) := by
  unfold V0Core.bit
  rw [Bool.eq_iff_iff]
  simp
  omega

theorem setBit_mask (dir dir' : Dir) (id : ℕ) (irq : DwIrq) {i : ℕ} (hi : i < 32) :
    ((setBit dir id irq).mask dir').getLsbD i = true ↔
      (irq.mask dir').getLsbD i = true ∨ dir = dir' ∧ id = i := by
  rw [eq_comm (a := id)]
  cases dir <;> cases dir' <;> simp [setBit,DwIrq.mask,bit_getLsbD hi]

theorem push_mask (st : Setup) (c : ChanSetup) (v : ℕ) (dir : Dir) {i : ℕ} (hi : i < 32) :
    (((st.push c).irq v).mask dir).getLsbD i = true ↔
      ((st.irq v).mask dir).getLsbD i = true ∨ c.dir = dir ∧ c.id = i ∧ c.pos = v := by
  by_cases hv : v = c.pos
  · subst hv
    simp only [Setup.push,Function.update_self,setBit_mask _ _ _ _ hi,and_true]
  · simp only [Setup.push,Function.update_of_ne hv]
    constructor
    · exact Or.inl
    · rintro (h | ⟨_,_,h⟩)
      · exact h
      · exact absurd h.symm hv

theorem foldl_push_chan (cs : List ChanSetup) (st : Setup) :
    (cs.foldl Setup.push st).chan = st.chan ++ cs := by
  induction cs generalizing st with
  | nil => simp
  | cons c cs ih => rw [List.foldl_cons,ih,Setup.push,List.append_assoc,List.singleton_append]

theorem foldl_push_mask (cs : List ChanSetup) (st : Setup) (v : ℕ) (dir : Dir) {i : ℕ} (hi : i < 32) :
    (((cs.foldl Setup.push st).irq v).mask dir).getLsbD i = true ↔
      ((st.irq v).mask dir).getLsbD i = true ∨ ∃ c ∈ cs, c.dir = dir ∧ c.id = i ∧ c.pos = v := by
  induction cs generalizing st with
  | nil => simp
  | cons c cs ih =>
    rw [List.foldl_cons,ih,push_mask _ _ _ _ hi]
    simp [or_assoc]

theorem mem_chansOf {chip : Chip} {cnt : ChCnt} {q : IrqReq} {dir : Dir} {c : ChanSetup} :
    c ∈ chansOf chip cnt q dir ↔ ∃ id < cnt.total dir, chanOf chip q dir id = c := by
  simp [chansOf]

theorem mem_setupOf {chip : Chip} {cnt : ChCnt} {q : IrqReq} {c : ChanSetup} :
    c ∈ (setupOf chip cnt q).chan ↔ ∃ dir, ∃ id < cnt.total dir, chanOf chip q dir id = c := by
  rw [setupOf,foldl_push_chan,Setup.init,List.nil_append,List.mem_append,mem_chansOf,mem_chansOf]
  constructor
  · rintro (h | h)
    · exact ⟨.write,h⟩
    · exact ⟨.read,h⟩
  · rintro ⟨dir,h⟩
    cases dir with
    | write => exact Or.inl h
    | read => exact Or.inr h

theorem setupOf_mask {chip : Chip} {cnt : ChCnt} {q : IrqReq} (hcnt : ∀ dir, cnt.total dir ≤ 32)
    {v : ℕ} {dir : Dir} {i : ℕ} :
    (((setupOf chip cnt q).irq v).mask dir).getLsbD i = true ↔
      i < cnt.total dir ∧ irqPos q.nrIrqs q.wrAlloc q.rdAlloc dir i = v := by
  by_cases hi : i < 32
  · rw [setupOf,foldl_push_mask _ _ _ _ hi]
    have hinit : ((Setup.init.irq v).mask dir).getLsbD i = false := by
      cases dir <;> simp [Setup.init,DwIrq.mask]
    simp only [hinit,Bool.false_eq_true,false_or,List.mem_append,mem_chansOf]
    constructor
    · rintro ⟨c,⟨id,hid,rfl⟩ | ⟨id,hid,rfl⟩,rfl,rfl,hpos⟩
      · exact ⟨hid,hpos⟩
      · exact ⟨hid,hpos⟩
    · rintro ⟨hid,hpos⟩
      refine ⟨chanOf chip q dir i,?_,rfl,rfl,hpos⟩
      cases dir with
      | write => exact Or.inl ⟨i,hid,rfl⟩
      | read => exact Or.inr ⟨i,hid,rfl⟩
  · have hle := hcnt dir
    rw [BitVec.getLsbD_of_ge _ _ (by omega)]
    constructor
    · intro h
      contradiction
    · rintro ⟨hlt,_⟩
      omega

/-- The masks are those of the vectors that the interrupt handlers run on. -/
theorem setupOf_vectors (dw : Dw) (chip : Chip) (q : IrqReq) (v : ℕ) (dir : Dir) :
    ((setupOf chip ⟨dw.wrChCnt,dw.rdChCnt⟩ q).irq v).mask dir =
      ((dw.vectors q.nrIrqs q.wrAlloc q.rdAlloc).irq v).mask dir := by
  have htotal : ∀ dir, (ChCnt.mk dw.wrChCnt dw.rdChCnt).total dir = dw.total dir := fun dir => by
    cases dir <;> rfl
  have hcnt : ∀ dir, (ChCnt.mk dw.wrChCnt dw.rdChCnt).total dir ≤ 32 := fun dir => by
    have hwr := dw.wr_le
    have hrd := dw.rd_le
    cases dir <;> simp only [ChCnt.total] <;> omega
  refine BitVec.eq_of_getLsbD_eq fun i _ => ?_
  rw [Bool.eq_iff_iff,setupOf_mask hcnt,vectors_mask,setupMask_getLsbD,htotal]

/-! ## The loads -/

/-- The number of channels in a mask. -/
def Setup.load (st : Setup) (v : ℕ) (dir : Dir) : ℕ :=
  Nat.count (fun i => ((st.irq v).mask dir).getLsbD i = true) 32

theorem count_mod {a v : ℕ} (hv : v < a) (b : ℕ) :
    Nat.count (fun i => i % a = v) b = b / a + if v < b % a then 1 else 0 := by
  have h := Nat.count_modEq_card b (Nat.zero_lt_of_lt hv) v
  simpa only [Nat.ModEq,Nat.mod_eq_of_lt hv] using h

theorem count_and_lt (p : ℕ → Prop) [DecidablePred p] {b n : ℕ} (h : b ≤ n) :
    Nat.count (fun i => i < b ∧ p i) n = Nat.count p b := by
  obtain ⟨k,rfl⟩ := Nat.exists_eq_add_of_le h
  have hlow : Nat.count (fun i => i < b ∧ p i) b = Nat.count p b := by
    rw [Nat.count_eq_card_filter_range,Nat.count_eq_card_filter_range]
    congr 1
    refine Finset.filter_congr fun i hi => ?_
    rw [Finset.mem_range] at hi
    exact and_iff_right hi
  have hhigh : Nat.count (fun i => b + i < b ∧ p (b + i)) k = 0 := by
    rw [Nat.count_eq_card_filter_range,Finset.card_eq_zero,Finset.filter_eq_empty_iff]
    intro i _ hlt
    omega
  rw [Nat.count_add,hlow,hhigh,Nat.add_zero]

/-- The first and the last vector of a direction. -/
def IrqReq.first (q : IrqReq) : Dir → ℕ
  | .write => 0
  | .read => q.wrAlloc

def IrqReq.alloc (q : IrqReq) : Dir → ℕ
  | .write => q.wrAlloc
  | .read => q.rdAlloc

theorem load_eq {chip : Chip} {cnt : ChCnt} {q : IrqReq} (hcnt : ∀ dir, cnt.total dir ≤ 32)
    (hmany : q.nrIrqs ≠ 1) {dir : Dir} {r : ℕ} (hr : r < q.alloc dir) :
    (setupOf chip cnt q).load (q.first dir + r) dir =
      cnt.total dir / q.alloc dir + if r < cnt.total dir % q.alloc dir then 1 else 0 := by
  have hmask : ∀ i, (((setupOf chip cnt q).irq (q.first dir + r)).mask dir).getLsbD i = true ↔
      i < cnt.total dir ∧ i % q.alloc dir = r := by
    intro i
    rw [setupOf_mask hcnt]
    cases dir <;> simp [irqPos,hmany,IrqReq.first,IrqReq.alloc]
  unfold Setup.load
  rw [← count_mod hr,← count_and_lt (fun i => i % q.alloc dir = r) (hcnt dir)]
  simp only [hmask]

/-! ## The routing -/

/-- The channels and the masks after the setup. -/
structure Routed (chip : Chip) (cnt : ChCnt) (q : IrqReq) (st : Setup) : Prop where
  ids : st.chan.map (fun c => (c.dir,c.id)) =
    (List.range cnt.wr).map (.write,·) ++ (List.range cnt.rd).map (.read,·)
  llMax : ∀ c ∈ st.chan, c.llMax = Driver.llMax (Driver.llRegion chip c.dir c.id)
  vector : ∀ c ∈ st.chan, ∀ v, ((st.irq v).mask c.dir).getLsbD c.id = true ↔ v = c.pos
  served : ∀ c ∈ st.chan, ∃ h, q.handlers[c.pos]? = some h ∧ c.dir ∈ h.dirs
  balanced : ∀ dir v w hv hw, q.handlers[v]? = some hv → q.handlers[w]? = some hw →
    dir ∈ hv.dirs → dir ∈ hw.dirs → st.load v dir ≤ st.load w dir + 1

section
variable {nrIrqs : ℕ} {cnt : ChCnt} {q : IrqReq} (h : Distributed nrIrqs cnt q)
include h

theorem Distributed.many (hmany : q.nrIrqs ≠ 1) (hnr : 1 ≤ nrIrqs) (hcnt : 0 < cnt.wr + cnt.rd) :
    2 ≤ nrIrqs := by
  have hnum := h.number
  omega

theorem Distributed.routable (hnr : 1 ≤ nrIrqs) (hcnt : 0 < cnt.wr + cnt.rd) :
    Routable nrIrqs cnt q where
  one _ := hnr
  wr hmany := (h.share (h.many hmany hnr hcnt)).2.2.2.1
  rd hmany := (h.share (h.many hmany hnr hcnt)).2.2.2.2
  entries_le hmany := by
    have hsum := (h.share (h.many hmany hnr hcnt)).1
    have hnum := h.number
    omega

/-- The vectors that serve a direction are those that were allocated for it. -/
theorem Distributed.serving (hnr : 2 ≤ nrIrqs) {v : ℕ} {f : Handler}
    (hv : q.handlers[v]? = some f) {dir : Dir} (hdir : dir ∈ f.dirs) :
    ∃ r, r < q.alloc dir ∧ v = q.first dir + r := by
  have hlt := (List.getElem?_eq_some_iff.mp hv).1
  have hsum := (h.share hnr).1
  have hlen := h.handlers
  have hf := h.handler v f hv
  have hone : ¬ (nrIrqs = 1) := by omega
  rw [if_neg hone] at hf
  subst hf
  cases dir with
  | write =>
    by_cases hw : v < q.wrAlloc
    · exact ⟨v,hw,(Nat.zero_add v).symm⟩
    · simp [hw,Handler.dirs] at hdir
  | read =>
    by_cases hw : v < q.wrAlloc
    · simp [hw,Handler.dirs] at hdir
    · exact ⟨v - q.wrAlloc,by simp only [IrqReq.alloc]; omega,by simp only [IrqReq.first]; omega⟩

/-- The handler at the position of a channel serves its direction. -/
theorem Distributed.serves (hnr : 1 ≤ nrIrqs) (hcnt : 0 < cnt.wr + cnt.rd) {dir : Dir} {id : ℕ}
    (hid : id < cnt.total dir) :
    ∃ f, q.handlers[irqPos q.nrIrqs q.wrAlloc q.rdAlloc dir id]? = some f ∧ dir ∈ f.dirs := by
  have hroutable := h.routable hnr hcnt
  have hlt : irqPos q.nrIrqs q.wrAlloc q.rdAlloc dir id < q.handlers.length := by
    rw [h.handlers]
    by_cases hone : q.nrIrqs = 1
    · cases dir <;> simp [irqPos,hone]
    · have hsum := (h.share (h.many hone hnr hcnt)).1
      exact irqPos_lt ⟨fun hc => absurd hc hone,hroutable.wr,hroutable.rd,
        fun _ => Nat.le_of_eq hsum⟩ dir hid
  refine ⟨_,List.getElem?_eq_getElem hlt,?_⟩
  have hf := h.handler _ _ (List.getElem?_eq_getElem hlt)
  rw [hf]
  by_cases hnr1 : nrIrqs = 1
  · rw [if_pos hnr1]
    cases dir <;> decide
  rw [if_neg hnr1]
  by_cases hone : q.nrIrqs = 1
  · -- the only channel has the only vector
    have hshare := h.share (by omega)
    have hnum := h.number
    cases dir with
    | write =>
      have hpos : 1 ≤ q.wrAlloc := hshare.2.2.2.1 (Nat.zero_lt_of_lt hid)
      rw [irqPos,if_pos hone,if_pos (by omega)]
      decide
    | read =>
      have hpos : 1 ≤ q.rdAlloc := hshare.2.2.2.2 (Nat.zero_lt_of_lt hid)
      rw [irqPos,if_pos hone,if_neg (by omega)]
      decide
  · cases dir with
    | write =>
      have hmod := Nat.mod_lt id (hroutable.wr hone (Nat.zero_lt_of_lt hid))
      rw [irqPos,if_neg hone,if_pos hmod]
      decide
    | read =>
      rw [irqPos,if_neg hone,if_neg (by omega)]
      decide

theorem Distributed.routed (hnr : 1 ≤ nrIrqs) (hcnt : 0 < cnt.wr + cnt.rd)
    (hle : ∀ dir, cnt.total dir ≤ 32) (chip : Chip) : Routed chip cnt q (setupOf chip cnt q) where
  ids := by
    rw [setupOf,foldl_push_chan,Setup.init,List.nil_append,List.map_append,chansOf,chansOf,
      List.map_map,List.map_map]
    rfl
  llMax c hc := by
    obtain ⟨dir,id,_,rfl⟩ := mem_setupOf.mp hc
    rfl
  vector c hc v := by
    obtain ⟨dir,id,hid,rfl⟩ := mem_setupOf.mp hc
    rw [setupOf_mask hle]
    exact ⟨fun hv => hv.2.symm,fun hv => ⟨hid,hv.symm⟩⟩
  served c hc := by
    obtain ⟨dir,id,hid,rfl⟩ := mem_setupOf.mp hc
    exact h.serves hnr hcnt hid
  balanced dir v w hv hw hvs hws hvd hwd := by
    by_cases hone : q.nrIrqs = 1
    · have hlv := (List.getElem?_eq_some_iff.mp hvs).1
      have hlw := (List.getElem?_eq_some_iff.mp hws).1
      rw [h.handlers] at hlv hlw
      rw [show v = w by omega]
      exact Nat.le_succ _
    · have hnr2 := h.many hone hnr hcnt
      obtain ⟨r,hr,rfl⟩ := h.serving hnr2 hvs hvd
      obtain ⟨t,ht,rfl⟩ := h.serving hnr2 hws hwd
      rw [load_eq hle hone hr,load_eq hle hone ht]
      split <;> split <;> omega

end

/-- The loops of the request end; if it is granted, both variants set up the same channels on
its vectors. -/
theorem irqs_distributed (chip : Chip) {nrIrqs : ℕ} {cnt : ChCnt} (hnr : 1 ≤ nrIrqs)
    (hcnt : 0 < cnt.wr + cnt.rd) (hwr : cnt.wr ≤ 32) (hrd : cnt.rd ≤ 32) : ∃ n,
    (∀ irqVector os, ∃ q, irqRequest n irqVector nrIrqs cnt os = some q) ∧
    ∀ os : Outcomes, os.Granted (min nrIrqs (cnt.wr + cnt.rd)) → ∃ q st,
      irqRequest n true nrIrqs cnt os = some q ∧ Distributed nrIrqs cnt q ∧
      channelSetup chip nrIrqs cnt q = some st ∧
      (channelSetup54 chip nrIrqs cnt q true Setup.init).bind
        (channelSetup54 chip nrIrqs cnt q false) = some st ∧ Routed chip cnt q st := by
  have hsmall : cnt.Small := ⟨by omega,by omega⟩
  have hle : ∀ dir, cnt.total dir ≤ 32 := fun dir => by cases dir <;> assumption
  have hn := enough_max nrIrqs cnt
  refine ⟨_,irqRequest_returns hn hcnt hsmall,fun os hos => ?_⟩
  obtain ⟨q,hq,hd⟩ := irqRequest_distributed hn hnr hcnt hsmall hos
  have hroutable := hd.routable hnr hcnt
  refine ⟨q,setupOf chip cnt q,hq,hd,channelSetup_eq hroutable chip,?_,hd.routed hnr hcnt hle chip⟩
  rw [channelSetup54_eq hroutable,Option.bind_some,channelSetup54_eq hroutable,setupOf,
    List.foldl_append]
  rfl

/-- Three vectors for two channels a direction: two of them for writing. -/
theorem irqs_distributed_three : ∃ n,
    (∀ irqVector os, ∃ q, irqRequest n irqVector 3 ⟨2,2⟩ os = some q) ∧
    ∀ os : Outcomes, os.Granted (min 3 (2 + 2)) → ∃ q st, irqRequest n true 3 ⟨2,2⟩ os = some q ∧
      Distributed 3 ⟨2,2⟩ q ∧
      channelSetup (Driver.Build.plain.layout.edmaChip 0) 3 ⟨2,2⟩ q = some st ∧
      (channelSetup54 (Driver.Build.plain.layout.edmaChip 0) 3 ⟨2,2⟩ q true Setup.init).bind
        (channelSetup54 (Driver.Build.plain.layout.edmaChip 0) 3 ⟨2,2⟩ q false) = some st ∧
      Routed (Driver.Build.plain.layout.edmaChip 0) ⟨2,2⟩ q st :=
  irqs_distributed _ (by decide) (by decide) (by decide) (by decide)

end AkidaEdma.Probe
