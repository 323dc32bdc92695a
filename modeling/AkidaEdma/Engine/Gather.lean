import AkidaEdma.Engine.Bus
import AkidaEdma.Engine.ScatterGather

/-! # What a scatter-gather request does to the memories

One block of the device on the one side, and the entries on the other. Carrying out the bursts of
the descriptor one after the other moves each entry from or to its place in the block.
-/
namespace AkidaEdma.DwEdma
open LittleEndian BlockCopy

def Bus.source (dir : Dir) (m : Bus) : Memory := if dir = .write then m.near else m.far

def Bus.target (dir : Dir) (m : Bus) : Memory := if dir = .write then m.far else m.near

/-- The block of an entry at `device`, as it is to be moved. -/
def Sg.copy (direction : XferDirection) (device : ℕ) (e : Sg) : Copy :=
  if direction = .devToMem then ⟨device,e.address,e.length⟩ else ⟨e.address,device,e.length⟩

/-- The blocks of a scatterlist whose device side begins at `base`. -/
def entryCopies (direction : XferDirection) : ℕ → List Sg → List Copy
  | _, [] => []
  | base, e :: sgl => e.copy direction base :: entryCopies direction (base + e.length) sgl

/-- The bytes of the entries. -/
def entryBytes (sgl : List Sg) : Set ℕ :=
  {x | ∃ e ∈ sgl, x ∈ Set.Ico e.address (e.address + e.length)}

/-- The bytes of the request have come from `src` to their places in `dst`. -/
structure Arrived (direction : XferDirection) (base : ℕ) (sgl : List Sg) (src dst : Memory) :
    Prop where
  gathered : direction = .devToMem → ∀ k e, sgl[k]? = some e → ∀ i, i < e.length →
    dst (e.address + i) = src (base + totalLength (sgl.take k) + i)
  scattered : direction = .memToDev → ∀ k e, sgl[k]? = some e → ∀ i, i < e.length →
    dst (base + totalLength (sgl.take k) + i) = src (e.address + i)

/-- `dst'` is `dst` with the request carried out from `src`. -/
structure Carried (direction : XferDirection) (base : ℕ) (sgl : List Sg) (src dst dst' : Memory) :
    Prop where
  arrived : Arrived direction base sgl src dst'
  outside : ∀ x, x ∉ (if direction = .devToMem then entryBytes sgl
    else Set.Ico base (base + totalLength sgl)) → dst' x = dst x

theorem sg_copy_len (direction : XferDirection) (device : ℕ) (e : Sg) :
    (e.copy direction device).len = e.length := by
  unfold Sg.copy
  split <;> rfl

theorem entryCopies_getElem? (direction : XferDirection) (base : ℕ) (sgl : List Sg) (k : ℕ) :
    (entryCopies direction base sgl)[k]? =
      sgl[k]?.map (Sg.copy direction (base + totalLength (sgl.take k))) := by
  induction sgl generalizing base k with
  | nil => rfl
  | cons e sgl ih =>
    cases k with
    | zero => rfl
    | succ k =>
      have hsum : totalLength ((e :: sgl).take (k + 1)) = e.length + totalLength (sgl.take k) := rfl
      rw [entryCopies,List.getElem?_cons_succ,ih,List.getElem?_cons_succ,hsum,Nat.add_assoc]

theorem totalLength_take_le (sgl : List Sg) {k : ℕ} {e : Sg} (h : sgl[k]? = some e) :
    totalLength (sgl.take k) + e.length ≤ totalLength sgl := by
  have hall : totalLength (sgl.take (k+1) ++ sgl.drop (k+1)) =
      totalLength (sgl.take (k+1)) + totalLength (sgl.drop (k+1)) := by
    simp [totalLength]
  rw [List.take_append_drop,totalLength_take_succ h] at hall
  omega

/-- The bursts of the descriptor are the blocks of the request, if the device addresses do not
wrap. -/
theorem Translated.copies {chip : Chip} {chan : Chan} {direction : XferDirection} {sgl : List Sg}
    {d : Desc} (h : Translated chip chan direction sgl d)
    (hwrap : deviceBase chip chan direction + totalLength sgl < 18446744073709551616) :
    (bursts d.chunk).map Burst.copy =
      entryCopies direction (deviceBase chip chan direction) sgl := by
  apply List.ext_getElem?
  intro k
  rw [List.getElem?_map,entryCopies_getElem?]
  cases hk : sgl[k]? with
  | none =>
    have hle : (bursts d.chunk).length ≤ k := by
      rw [h.length]
      exact List.getElem?_eq_none_iff.mp hk
    rw [List.getElem?_eq_none hle]
    rfl
  | some e =>
    obtain ⟨b,hb,hsz,hhost,hdevice⟩ := h.burst k e hk
    have hle := totalLength_take_le sgl hk
    have hlt : u64 (deviceBase chip chan direction + totalLength (sgl.take k)) =
        deviceBase chip chan direction + totalLength (sgl.take k) := Nat.mod_eq_of_lt (by omega)
    rw [hb,Option.map_some,Option.map_some,Burst.copy]
    by_cases hd : direction = .devToMem
    · rw [Burst.hostAddr,if_pos hd] at hhost
      rw [Burst.deviceAddr,if_pos hd,hlt] at hdevice
      rw [Sg.copy,if_pos hd,hhost,hdevice,hsz]
    · rw [Burst.hostAddr,if_neg hd] at hhost
      rw [Burst.deviceAddr,if_neg hd,hlt] at hdevice
      rw [Sg.copy,if_neg hd,hhost,hdevice,hsz]

/-! ## Both directions -/

theorem mem_entryCopies {direction : XferDirection} {base : ℕ} {sgl : List Sg} {k : ℕ} {e : Sg}
    (h : sgl[k]? = some e) :
    e.copy direction (base + totalLength (sgl.take k)) ∈ entryCopies direction base sgl := by
  refine List.mem_of_getElem? (i := k) ?_
  rw [entryCopies_getElem?,h]
  rfl

/-- Towards the host the targets are the entries. -/
theorem entryCopies_target {base : ℕ} {sgl : List Sg} {c : Copy}
    (h : c ∈ entryCopies .devToMem base sgl) :
    ∃ e ∈ sgl, c.target = Set.Ico e.address (e.address + e.length) := by
  obtain ⟨k,hk⟩ := List.mem_iff_getElem?.mp h
  rw [entryCopies_getElem?] at hk
  obtain ⟨e,he,rfl⟩ := Option.map_eq_some_iff.mp hk
  exact ⟨e,List.mem_of_getElem? he,rfl⟩

/-- No entry goes over another. -/
def Apart (sgl : List Sg) : Prop :=
  sgl.Pairwise fun e f => Disjoint (Set.Ico e.address (e.address + e.length))
    (Set.Ico f.address (f.address + f.length))

theorem entryCopies_pairwise {sgl : List Sg} (h : Apart sgl) (base : ℕ) :
    (entryCopies .devToMem base sgl).Pairwise fun c d => Disjoint c.target d.target := by
  induction sgl generalizing base with
  | nil => exact .nil
  | cons e sgl ih =>
    obtain ⟨he,hsgl⟩ := List.pairwise_cons.mp h
    refine List.pairwise_cons.mpr ⟨fun d hd => ?_,ih hsgl _⟩
    obtain ⟨f,hf,htarget⟩ := entryCopies_target hd
    rw [htarget]
    exact he f hf

/-- Towards the device each target begins where the one before it ends. -/
theorem entryCopies_consecutive (base : ℕ) (sgl : List Sg) :
    Consecutive base (entryCopies .memToDev base sgl) := by
  induction sgl generalizing base with
  | nil => trivial
  | cons e sgl ih => exact ⟨rfl,ih (base + e.length)⟩

theorem entryCopies_total (direction : XferDirection) (base : ℕ) (sgl : List Sg) :
    total (entryCopies direction base sgl) = totalLength sgl := by
  induction sgl generalizing base with
  | nil => rfl
  | cons e sgl ih =>
    have hcons : total (entryCopies direction base (e :: sgl)) =
        (e.copy direction base).len + total (entryCopies direction (base + e.length) sgl) := rfl
    rw [hcons,ih,sg_copy_len]
    rfl

theorem copies_carried {direction : XferDirection} {sgl : List Sg}
    (hdir : direction = .devToMem ∨ direction = .memToDev)
    (happart : direction = .devToMem → Apart sgl) (base : ℕ) (src dst : Memory) :
    Carried direction base sgl src dst (copies (entryCopies direction base sgl) src dst) := by
  refine ⟨⟨?_,?_⟩,fun x hx => ?_⟩
  · rintro rfl k e hk i hi
    exact copies_inside (entryCopies_pairwise (happart rfl) base) (mem_entryCopies hk) src dst hi
  · rintro rfl k e hk i hi
    exact copies_inside (entryCopies_consecutive base sgl).pairwise (mem_entryCopies hk) src dst hi
  · rcases hdir with rfl | rfl
    · refine copies_outside (fun c hc hmem => hx ?_) src dst
      obtain ⟨e,he,htarget⟩ := entryCopies_target hc
      rw [htarget] at hmem
      exact ⟨e,he,hmem⟩
    · refine (entryCopies_consecutive base sgl).outside ?_ src dst
      rw [entryCopies_total]
      exact hx

/-- The bursts of one channel, as copies from its source to its target. -/
theorem moves_channel (dir : Dir) (bs : List Burst) (m : Bus) :
    (m.moves (bs.map (Prod.mk dir))).target dir =
      copies (bs.map Burst.copy) (m.source dir) (m.target dir) ∧
    (m.moves (bs.map (Prod.mk dir))).source dir = m.source dir := by
  cases dir with
  | write =>
    rw [moves_write]
    exact ⟨rfl,rfl⟩
  | read =>
    rw [moves_read]
    exact ⟨rfl,rfl⟩

/-- The descriptor of a scatter-gather request does what the request says: a read from the device
fills each entry with its part of the block, a write to it fills the block with the entries one
after the other, and no other byte changes. -/
theorem scatterGather_carried {chip : Chip} {chan : Chan} {direction : XferDirection}
    {sgl : List Sg} (hll : 1 ≤ chan.llMax) (hconf : chan.configured = true)
    (hok : directionOk chip chan.dir direction = true) (hne : 1 ≤ sgl.length)
    (ht : Typed chip chan direction sgl)
    (hwrap : deviceBase chip chan direction + totalLength sgl < 18446744073709551616)
    (happart : direction = .devToMem → Apart sgl) (vd : ℕ) (m : Bus) : ∃ d,
      deviceTransfer chip chan vd ⟨direction,.scatterGather sgl sgl.length⟩ = some d ∧
      Carried direction (deviceBase chip chan direction) sgl (m.source chan.dir)
        (m.target chan.dir) ((m.moves ((bursts d.chunk).map (Prod.mk chan.dir))).target chan.dir) ∧
      (m.moves ((bursts d.chunk).map (Prod.mk chan.dir))).source chan.dir = m.source chan.dir := by
  obtain ⟨d,hd⟩ : ∃ d, deviceTransfer chip chan vd ⟨direction,.scatterGather sgl sgl.length⟩ =
      some d := by
    simp [deviceTransfer,hconf,hok,Xfer.valid,hne]
  have hcopies := (deviceTransfer_translated hll hne ht hd).copies hwrap
  have hdir : direction = .devToMem ∨ direction = .memToDev := by
    revert hok
    unfold directionOk
    cases chip.isLocal <;> cases chan.dir <;> cases direction <;> decide
  obtain ⟨htarget,hsource⟩ := moves_channel chan.dir (bursts d.chunk) m
  refine ⟨d,hd,?_,hsource⟩
  rw [htarget,hcopies]
  exact copies_carried hdir happart _ _ _

/-- The bytes 0, 1, 2, … and back to 0 after 255 on the device, and zeros on the host. -/
def countingBus : Bus := ⟨fun x => BitVec.ofNat 8 x,fun _ => 0#8⟩

/-- Three entries in chunks of two, read from the device. -/
theorem threeEntries_carried : ∃ d, deviceTransfer plainChip
      ⟨0,.write,2,.none,.idle,true,⟨100,0⟩,[],[],[]⟩ 0
      ⟨.devToMem,.scatterGather [⟨4096,8⟩,⟨8192,16⟩,⟨12288,4⟩] 3⟩ = some d ∧
    Carried .devToMem 100 [⟨4096,8⟩,⟨8192,16⟩,⟨12288,4⟩] countingBus.near countingBus.far
      (countingBus.moves ((bursts d.chunk).map (Prod.mk .write))).far ∧
    (countingBus.moves ((bursts d.chunk).map (Prod.mk .write))).near = countingBus.near :=
  scatterGather_carried (by decide) rfl rfl (by decide) ⟨by decide,by decide,by decide⟩
    (by decide) (fun _ => by simp [Apart]) 0 countingBus

end AkidaEdma.DwEdma
