import AkidaEdma.Engine.Interrupts

/-! # The service of a raised interrupt

An invocation that begins when the bit of a channel is set reads the register once more, finds the
bit, clears it and calls back before it returns, whatever the hardware and the other vectors do
meanwhile. An invocation reads no register twice, and each read finds at most eight interrupts, so
this takes a bounded number of its own steps.
-/
namespace AkidaEdma.HandleInt
open AkidaEdma.DwEdma AkidaEdma.V0Core AkidaEdma.Registers Transition

/-- The read finds the interrupt if it is pending. -/
def Read.Shows (r : Read) (dw : Dw) (irq : DwIrq) (c : HwChan) (k : Irq) : Prop :=
  ∀ word, pending dw.core word c k = true → (c,k) ∈ dw.found irq word r

/-- The invocation has the callback of the interrupt before it. -/
inductive Invocation.Ahead (dw : Dw) (irq : DwIrq) (word : ℕ → Word) (c : HwChan) (k : Irq)
    (i : Invocation) : Prop
  | reads {r : Read} (hr : r ∈ i.reads) (hshows : r.Shows dw irq c k)
      (hp : pending dw.core word c k = true) : Ahead dw irq word c k i
  | found (hf : (c,k) ∈ i.found) : Ahead dw irq word c k i
  | calling (hc : i.calling = some (c,k)) : Ahead dw irq word c k i

/-- A bound on the steps that an invocation has before it, without its return. -/
def Invocation.left (i : Invocation) : ℕ :=
  17 * i.reads.length + 2 * i.found.length + i.calling.isSome.toNat

/-- The steps of a vector. -/
def Label.own (v : ℕ) : Label → Bool
  | .run w _ => w == v
  | _ => false

/-- Vector `v` serves the interrupt within `n` of its steps. -/
def State.Serves (dw : Dw) (vs : Vectors) (v : ℕ) (c : HwChan) (k : Irq) (n : ℕ) (s : State) :
    Prop :=
  ∃ i, s.calls v = some i ∧ i.Ahead dw (vs.irq v) s.word c k ∧ i.left ≤ n

theorem forEachSetBit_length (val : Word) (size : ℕ) : (forEachSetBit val size).length ≤ 8 := by
  refine (List.length_filter_le _ _).trans ?_
  simp

theorem found_length (dw : Dw) (irq : DwIrq) (word : ℕ → Word) (r : Read) :
    (dw.found irq word r).length ≤ 8 := by
  cases r with
  | status k dir =>
    rw [Dw.found,List.length_map]
    exact forEachSetBit_length _ _
  | stat c =>
    rw [Dw.found,List.length_append]
    split_ifs <;> simp

variable {dw : Dw} {vs : Vectors} {s t : State} {v : ℕ} {i : Invocation} {c : HwChan} {k : Irq}
  {n : ℕ}

theorem Invocation.Ahead.left_pos {irq : DwIrq} {word : ℕ → Word}
    (h : i.Ahead dw irq word c k) : 0 < i.left := by
  unfold Invocation.left
  cases h with
  | reads hr _ _ =>
    have := List.length_pos_of_mem hr
    omega
  | found hf =>
    have := List.length_pos_of_mem hf
    omega
  | calling hc =>
    rw [hc]
    simp

/-- Registers that keep the bit. -/
theorem Invocation.Ahead.mono {irq : DwIrq} {word word' : ℕ → Word}
    (h : i.Ahead dw irq word c k)
    (hp : pending dw.core word c k = true → pending dw.core word' c k = true) :
    i.Ahead dw irq word' c k := by
  cases h with
  | reads hr hshows hpending => exact .reads hr hshows (hp hpending)
  | found hf => exact .found hf
  | calling hc => exact .calling hc

/-- The other steps leave the invocation alone. -/
theorem State.Serves.frame (h : s.Serves dw vs v c k n) (hcalls : t.calls v = s.calls v)
    (hp : pending dw.core s.word c k = true → pending dw.core t.word c k = true) :
    t.Serves dw vs v c k n := by
  obtain ⟨i,hi,ha,hn⟩ := h
  exact ⟨i,hcalls.trans hi,ha.mono hp,hn⟩

/-- A step of the invocation itself. -/
theorem run_serves (h : i.Ahead dw (vs.irq v) s.word c k)
    (again : Bool) : (s.run dw vs v i again).called c k = s.called c k + 1 ∨
      (s.run dw vs v i again).Serves dw vs v c k (i.left - 1) := by
  unfold State.run
  split
  · rename_i c' k' hc
    by_cases he : (c',k') = (c,k)
    · cases he
      refine Or.inl ?_
      simp [State.setCall,Latch.bump_apply]
    · refine Or.inr ⟨_,Function.update_self ..,?_,?_⟩
      · cases h with
        | reads hr hshows hp => exact .reads hr hshows hp
        | found hf => exact .found hf
        | calling hcall => exact absurd (Option.some.inj (hc.symm.trans hcall)) he
      · simp [Invocation.left,hc]
  · rename_i c' k' rest hc hf
    refine Or.inr ⟨_,Function.update_self ..,?_,?_⟩
    · by_cases he : (c',k') = (c,k)
      · exact .calling (congrArg some he)
      · cases h with
        | reads hr hshows hp =>
          exact .reads hr hshows ((clearInt_pending ..).mpr ⟨hp,Ne.symm he⟩)
        | found hmem =>
          rw [hf] at hmem
          exact .found ((List.mem_cons.mp hmem).resolve_left (Ne.symm he))
        | calling hcall =>
          rw [hc] at hcall
          contradiction
    · simp only [Invocation.left,hc,hf,List.length_cons,Option.isSome_some,Option.isSome_none,
        Bool.toNat_true,Bool.toNat_false]
      omega
  · rename_i r reads hc hf hr
    refine Or.inr ⟨_,Function.update_self ..,?_,?_⟩
    · cases h with
      | reads hmem hshows hp =>
        rw [hr] at hmem
        rcases List.mem_cons.mp hmem with rfl | hmem
        · exact .found (hshows s.word hp)
        · exact .reads hmem hshows hp
      | found hmem =>
        rw [hf] at hmem
        contradiction
      | calling hcall =>
        rw [hc] at hcall
        contradiction
    · have hlen := found_length dw (vs.irq v) s.word r
      simp only [Invocation.left,hc,hf,hr,List.length_cons,List.length_nil,Option.isSome_none,
        Bool.toNat_false]
      omega
  · rename_i hc hf hr
    cases h with
    | reads hmem _ _ =>
      rw [hr] at hmem
      contradiction
    | found hmem =>
      rw [hf] at hmem
      contradiction
    | calling hcall =>
      rw [hc] at hcall
      contradiction

/-- A step brings the callback nearer if it is one of the vector, and no other step gets in its
way. -/
theorem step_serves {l : Label} (hfit : s.Fit dw vs) (hv : vs.Covers dw v c)
    (h : s.Serves dw vs v c k n) (he : step dw vs s l = some t) :
    s.called c k < t.called c k ∨ t.Serves dw vs v c k (n - (l.own v).toNat) := by
  cases l with
  | raise c' k' =>
    simp only [step] at he
    split at he <;> cases he
    exact Or.inr (h.frame rfl fun hp => (setInt_pending ..).mpr (Or.inl hp))
  | start c' =>
    simp only [step] at he
    split at he <;> cases he
    exact Or.inr (h.frame rfl fun hp => hp)
  | irq w =>
    simp only [step] at he
    split at he <;> cases he
    rename_i hw
    refine Or.inr (h.frame (Function.update_of_ne ?_ ..) fun hp => hp)
    rintro rfl
    obtain ⟨i,hi,_⟩ := h
    rw [hw] at hi
    contradiction
  | run w again =>
    obtain ⟨j,hj,rfl⟩ := Option.map_eq_some_iff.mp he
    by_cases hw : w = v
    · subst hw
      obtain ⟨i,hi,ha,hn⟩ := h
      cases hi.symm.trans hj
      rcases run_serves ha again with hcalled | ⟨i',hi',ha',hn'⟩
      · exact Or.inl (by omega)
      · refine Or.inr ⟨i',hi',ha',?_⟩
        simp only [Label.own,beq_self_eq_true,Bool.toNat_true]
        omega
    · -- another vector has other channels
      have hother : ¬ vs.Covers dw w c := fun hc => hw (hc.unique hv)
      obtain ⟨hpending,_⟩ := turn_others (hfit w j hj) (run_turn dw vs s w j again) hother
      have hown : (Label.run w again).own v = false := by simpa [Label.own] using hw
      rw [hown]
      refine Or.inr (h.frame ?_ fun hp => (hpending k).trans hp)
      unfold State.run
      split <;> exact Function.update_of_ne (Ne.symm hw) ..

theorem step_called_le {l : Label} (he : step dw vs s l = some t) (c : HwChan) (k : Irq) :
    s.called c k ≤ t.called c k := by
  cases l with
  | raise c' k' =>
    simp only [step] at he
    split at he <;> cases he
    exact Nat.le_refl _
  | start c' =>
    simp only [step] at he
    split at he <;> cases he
    exact Nat.le_refl _
  | irq w =>
    simp only [step] at he
    split at he <;> cases he
    exact Nat.le_refl _
  | run w again =>
    obtain ⟨j,_,rfl⟩ := Option.map_eq_some_iff.mp he
    unfold State.run
    split
    · rename_i c' k' _
      by_cases hc : c = c'
      · subst hc
        simp [State.setCall,Latch.bump_apply]
      · simp [State.setCall,Function.update_of_ne hc]
    · exact Nat.le_refl _
    · exact Nat.le_refl _
    · exact Nat.le_refl _

theorem runs_serves {ls : List Label} (hfit : s.Fit dw vs) (hv : vs.Covers dw v c)
    (h : s.Serves dw vs v c k n) (hr : Runs (step dw vs) free s ls t) :
    s.called c k < t.called c k ∨ t.Serves dw vs v c k (n - ls.countP (Label.own v)) := by
  induction hr generalizing n with
  | refl => exact Or.inr h
  | @step s m t l ls _ he hr ih =>
    have hle : m.called c k ≤ t.called c k :=
      hr.related (R := fun s t => s.called c k ≤ t.called c k) (fun _ => Nat.le_refl _)
        (fun _ _ _ => Nat.le_trans) (fun _ _ _ _ he => step_called_le he c k)
    have hfirst := step_called_le he c k
    rcases step_serves hfit hv h he with hcalled | hm
    · exact Or.inl (by omega)
    · rcases ih (step_fit hfit he) hm with hcalled | ht
      · exact Or.inl (by omega)
      · refine Or.inr ?_
        have hcount : (l :: ls).countP (Label.own v) =
            (l.own v).toNat + ls.countP (Label.own v) := by
          rw [List.countP_cons,Nat.add_comm]
          cases l.own v <;> rfl
        rw [hcount,← Nat.sub_sub]
        exact ht

theorem handleInt_length (dw : Dw) (irq : DwIrq) (dir : Dir) :
    (dw.handleInt irq dir).length ≤ 8 := by
  unfold Dw.handleInt
  split
  · exact (by decide : 2 ≤ 8)
  · rw [hdmaV0HandleInt,List.length_map]
    exact forEachSetBit_length _ _

theorem reads_length (dw : Dw) (vs : Vectors) (v : ℕ) : (vs.enter dw v).reads.length ≤ 16 := by
  have hlen := handleInt_length dw (vs.irq v)
  have hwrite := hlen .write
  have hread := hlen .read
  unfold Vectors.enter
  cases vs.handler v <;> simp only [Handler.dirs,List.flatMap_cons,List.flatMap_nil,
    List.append_nil,List.length_append] <;> omega

/-- An interrupt that is pending when an invocation of its vector begins is called back before
the invocation returns, and within 272 of its steps, whatever happens meanwhile. -/
theorem interrupt_served {u : State} {ls ks : List Label}
    (hs : Runs (step dw vs) free State.init ls s) (hv : vs.Covers dw v c)
    (hp : pending dw.core s.word c k = true) (he : step dw vs s (.irq v) = some t)
    (hr : Runs (step dw vs) free t ks u)
    (hend : u.calls v = none ∨ 272 ≤ ks.countP (Label.own v)) :
    s.called c k < u.called c k := by
  have hfit : s.Fit dw vs :=
    hs.invariant (fun _ _ _ h _ he => step_fit h he) fun _ _ h => by contradiction
  obtain ⟨r,hmem,hshows⟩ := read_finds hv k
  have hlen := reads_length dw vs v
  have hserves : t.Serves dw vs v c k 272 ∧ t.called = s.called := by
    simp only [step] at he
    split at he <;> cases he
    refine ⟨⟨_,Function.update_self ..,.reads hmem hshows hp,?_⟩,rfl⟩
    have hleft : (vs.enter dw v).left = 17 * (vs.enter dw v).reads.length := rfl
    rw [hleft]
    omega
  rw [← hserves.2]
  refine (runs_serves (step_fit hfit he) hv hserves.1 hr).resolve_right ?_
  rintro ⟨i,hi,ha,hle⟩
  have hpos := ha.left_pos
  rcases hend with hnone | hmany
  · rw [hnone] at hi
    contradiction
  · omega

/-- One vector for four channels. -/
def oneVector : State → Label → Option State :=
  step (twoByTwo .edmaV0) ((twoByTwo .edmaV0).vectors 1 0 0)

/-- Two channels work, and the second one ends. -/
def secondEnded (c c' : HwChan) : List Label := [.start c,.start c',.raise c' .done]

/-- A whole invocation, during which the first one ends as well. -/
def firstLate (c : HwChan) : List Label :=
  [.run 0 false,.raise c .done] ++ List.replicate 6 (.run 0 false)

theorem secondEnded_runs :
    (exec oneVector State.init (secondEnded (.write,0) (.write,1))).isSome = true := by
  decide +kernel

theorem entered_runs : (oneVector ((exec oneVector State.init
    (secondEnded (.write,0) (.write,1))).get secondEnded_runs) (.irq 0)).isSome = true := by
  decide +kernel

theorem firstLate_runs : (exec oneVector ((oneVector ((exec oneVector State.init
    (secondEnded (.write,0) (.write,1))).get secondEnded_runs) (.irq 0)).get entered_runs)
      (firstLate (.write,0))).isSome = true := by decide +kernel

theorem firstLate_served : ∃ s t u,
    Runs oneVector free State.init (secondEnded (.write,0) (.write,1)) s ∧
    oneVector s (.irq 0) = some t ∧ Runs oneVector free t (firstLate (.write,0)) u ∧
    s.called (.write,1) .done < u.called (.write,1) .done ∧
    pending .edmaV0 u.word (.write,0) .done = true := by
  have hs := runs_of_exec (guarded_free _ _) (Option.some_get secondEnded_runs).symm
  have hu := runs_of_exec (guarded_free _ _) (Option.some_get firstLate_runs).symm
  have hv : ((twoByTwo .edmaV0).vectors 1 0 0).Covers (twoByTwo .edmaV0) 0 (.write,1) :=
    ⟨by decide,by decide,by decide⟩
  exact ⟨_,_,_,hs,(Option.some_get entered_runs).symm,hu,
    interrupt_served hs hv (by decide +kernel) (Option.some_get entered_runs).symm hu
      (Or.inl (by decide +kernel)),by decide +kernel⟩

end AkidaEdma.HandleInt
