import AkidaEdma.Engine.Arrival
import AkidaEdma.System.DataPath

/-! # What is in flight

When the engine takes an element in a calm run, one call waits on the channel, the element is its
whole chunk, and the buffer of the call is still mapped.
-/
namespace AkidaEdma.Execution
open AkidaEdma.DwEdma

variable {su : Setup} {S : Set Ch} {c : Ch} {s : Machine}

/-- A channel with nothing issued has moved all that it was given. -/
theorem Lane.settled (h : Lane su S c s) (hi : (s.chan c).chan.descIssued = []) :
    s.movedBy c = bursts ((issues (s.chan c).log).flatMap Desc.chunk) := by
  refine h.quiet_moved fun d hd => ?_
  obtain ⟨pre,cur,used,hprog⟩ := h.ordered.1.progress
  have hqueue := hprog.queue
  rw [hi] at hqueue
  cases hqueue
  rw [hprog.issued,List.append_nil] at hd
  rw [hprog.completed]
  exact List.mem_map_of_mem hd

/-- When one descriptor is left, those before it are moved. -/
theorem Lane.before_last (h : Lane su S c s) {e d : Desc} {I : List Desc}
    (hi : (s.chan c).chan.descIssued = [e]) (hiss : issues (s.chan c).log = I ++ [d]) :
    bursts (I.flatMap Desc.chunk) <+: s.movedBy c := by
  obtain ⟨pre,cur,used,hprog⟩ := h.ordered.1.progress
  have hqueue := hprog.queue
  have hissued := hprog.issued
  rw [hi] at hqueue
  obtain _ | @⟨f,_,_,us,_,_⟩ := hqueue
  rw [hiss] at hissued
  obtain ⟨hpre,_⟩ := List.append_inj' hissued rfl
  rcases List.eq_nil_or_concat I with rfl | ⟨init,last,rfl⟩
  · exact List.nil_prefix
  · rw [List.concat_eq_append] at hiss hpre ⊢
    rw [List.append_assoc] at hiss
    refine h.completed_prefix hiss ?_
    rw [hprog.completed,← hpre]
    simp

end AkidaEdma.Execution

namespace AkidaEdma.DataPath
open Transition BlockCopy
open AkidaEdma.Driver (ChanId DmaChan Xfer Choice Way Device Calm Calmed)
open AkidaEdma.Execution (Machine Setup Ch Move Lane)
open AkidaEdma.DwEdma (Op Burst Desc Bus bursts issues)

variable {w : Installation} {s t : System}

/-- All that was issued on the channel is moved. -/
def System.Settled (s : System) (c : ChanId) : Prop := s.machine.movedBy (hw c) =
  bursts ((issues (s.driver.chans c).engine.log).flatMap Desc.chunk)

theorem Joined.settled (h : Joined w s) {c : ChanId}
    (hi : (s.driver.chans c).engine.chan.descIssued = []) : s.Settled c := by
  rw [← h.chan c] at hi
  have hs := (h.lane (hw c) ⟨c,rfl⟩).settled hi
  rw [h.chan c] at hs
  exact hs

/-- What was moved before the last burst, and then this burst itself. -/
theorem concat_prefix {α : Type*} {xs ys : List α} {a b : α} (h : xs <+: ys)
    (h' : ys ++ [a] <+: xs ++ [b]) : ys = xs ∧ a = b := by
  have hlen := h'.length_le
  simp only [List.length_append,List.length_singleton] at hlen
  have heq := h.eq_of_length_le (by omega)
  rw [← heq] at h'
  have hall := h'.eq_of_length (by simp)
  exact ⟨heq.symm,(List.cons.inj (List.append_cancel_left hall)).1⟩

/-- The call that waits for the descriptors of a channel. -/
theorem Joined.waiter (h : Joined w s) {c : ChanId}
    (hi : (s.driver.chans c).engine.chan.descIssued ≠ []) :
    ∃ k x, s.driver.At k c x ∧ x.stage = .wait ∧ (s.driver.chans c).waiting = [x.txdesc] ∧
      Driver.Mapped x.mapping (s.driver.chans c) ∧
      ∃ e, (s.driver.chans c).engine.chan.descIssued = [e] := by
  obtain ⟨o,ho,hacc,hready⟩ := h.calm.sessions c
  have hline := Driver.waiting_eq hacc.clients
  dsimp only at hline
  obtain ⟨e,rest,hcons⟩ := List.exists_cons_of_ne_nil hi
  rw [hcons] at hline
  have hnot : (s.driver.chans c).waiting ≠ [] := by
    rw [hline]
    simp
  cases o with
  | none => exact absurd (hacc.free rfl).waiting hnot
  | some x =>
    obtain ⟨k,hk⟩ := (ho x).mp rfl
    have hm := hacc.stage x rfl
    have howed : Driver.Owed x.mapping x.txdesc (s.driver.chans c) →
        (s.driver.chans c).waiting = [x.txdesc] ∧
          Driver.Mapped x.mapping (s.driver.chans c) := by
      rintro (⟨hmap,hw,_⟩ | ⟨hf,_⟩)
      · exact ⟨hw,hmap⟩
      · exact absurd hf.waiting hnot
    have hone : (s.driver.chans c).waiting = [x.txdesc] →
        (s.driver.chans c).engine.chan.descSubmitted = [] ∧
          (s.driver.chans c).engine.chan.descIssued = [e] := by
      intro hwait
      rw [hwait] at hline
      have hlen := congrArg List.length hline
      simp only [List.length_map,List.length_append,List.length_cons,List.length_nil] at hlen
      have hrest : rest = [] := List.length_eq_zero_iff.mp (by omega)
      rw [hcons,hrest]
      exact ⟨List.length_eq_zero_iff.mp (by omega),rfl⟩
    cases hs : x.stage <;> rw [hs] at hm
    case wait =>
      obtain ⟨hwait,hmap⟩ := howed hm
      exact ⟨k,x,hk,hs,hwait,hmap,e,(hone hwait).2⟩
    case issue =>
      obtain ⟨hwait,_⟩ := howed hm
      simp only [Driver.Session.Readied,Xfer.Ready,hs] at hready
      obtain ⟨_,_,_,d,hd,_⟩ := hready
      rw [(hone hwait).1] at hd
      contradiction
    case terminate => exact hm.elim
    case map => exact absurd hm.waiting hnot
    case returned ret => exact absurd hm.waiting hnot
    case config => exact absurd hm.2 hnot
    case prep => exact absurd hm.2 hnot
    case err ret => exact absurd hm.2 hnot
    case reinit => exact absurd hm.2.1 hnot
    case submit => exact absurd hm.2.1 hnot

/-- The transfer whose chunk is the element that the engine took. -/
structure Flight (s : System) (c : ChanId) (k : ℕ) (x : Xfer) (m : Machine) : Prop where
  runs : s.driver.At k c x
  stage : x.stage = .wait
  waiting : (s.driver.chans c).waiting = [x.txdesc]
  mapped : Driver.Mapped x.mapping (s.driver.chans c)
  fits : x.Fits (s.driver.chans c)
  before : ¬ s.Settled c
  after : m.movedBy (hw c) =
    bursts ((issues (s.driver.chans c).engine.log).flatMap Desc.chunk)
  bus : m.bus = s.machine.bus.move c.1.dir
    (c.1.burst x.devAddr (s.driver.chans c).dmaBuf x.len)

theorem Joined.flight (h : Joined w s) {c : ChanId} {m : Machine}
    (he : s.machine.element w.setup (hw c) = some m) : ∃ k x, Flight s c k x m := by
  have hlane := h.lane (hw c) ⟨c,rfl⟩
  obtain ⟨hrun,_,_,b,_,hm⟩ := Execution.element_some he
  obtain ⟨o,ho,hacc,_⟩ := h.calm.sessions c
  -- the running chunk is that of the head of `desc_issued`
  have hissued : (s.driver.chans c).engine.chan.descIssued ≠ [] := by
    have hout : (s.driver.chans c).engine.hw.outstanding ≠ [] := by
      rw [← h.chan c]
      unfold DwEdma.Hw.outstanding
      exact List.append_ne_nil_of_right_ne_nil _ hrun
    obtain ⟨_,_,_,hi,_⟩ := hacc.clients.solo.head.one hout
    rw [hi]
    exact List.cons_ne_nil _ _
  obtain ⟨k,x,hk,hs,hwait,hmap,e,hone⟩ := h.waiter hissued
  obtain ⟨_,hready⟩ := h.at hk
  simp only [Xfer.Ready,hs] at hready
  obtain ⟨hfits,_,I,d,hiss,hmade⟩ := hready
  have hbursts : bursts ((issues (s.driver.chans c).engine.log).flatMap Desc.chunk) =
      bursts (I.flatMap Desc.chunk) ++ [c.1.burst x.devAddr (s.driver.chans c).dmaBuf x.len] := by
    rw [hiss,List.flatMap_append,DwEdma.bursts_append,List.flatMap_singleton,hmade]
  have hmoved : m.movedBy (hw c) = s.machine.movedBy (hw c) ++ [b] := by
    rw [Execution.movedBy_append (hw c) b m (by rw [hm]),if_pos rfl]
  have hsame : m.chan (hw c) = (s.driver.chans c).engine := by
    rw [← h.chan c,hm]
  -- it is the last burst that was issued
  have hbefore := hlane.before_last (by rw [h.chan c]; exact hone) (by rw [h.chan c]; exact hiss)
  have hafter := Execution.Lane.moved_prefix (hlane.element w.laid ⟨c,rfl⟩ he)
  rw [hsame,hbursts,hmoved] at hafter
  obtain ⟨hall,hb⟩ := concat_prefix hbefore hafter
  refine ⟨k,x,hk,hs,hwait,hmap,hfits,?_,?_,?_⟩
  · intro hset
    rw [System.Settled,hbursts,hall] at hset
    simpa using congrArg List.length hset
  · rw [hmoved,hbursts,hall,hb]
  · rw [hm,hb]
    rfl

end AkidaEdma.DataPath
