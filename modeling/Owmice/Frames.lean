import Owmice.Bitmap
import Owmice.Memory
import Owmice.Runs

/-! # Page frames (`mem/mem.h`)

The physical memory manager: a bitmap `memory_map` with one bit for every 4096-byte frame and
two counters.  A set bit is a used frame.  The bitmap is an object of its own, apart from the
memory it describes.

* `findFreeBlock_eq_some_iff`, `findFreeBlock_eq_none_iff`: the search finds the lowest clear
  bit of the complete words;
* `frames_run`: single frames over runs. -/

namespace Owmice.Frames

/-- `memory_map`, `blocks_used` and `blocks_max`. -/
structure FrameState where
  memoryMap : Bitmap
  blocksUsed : ℕ
  blocksMax : ℕ

/-- What a function that may call `die` does: it returns a value, or it halts the machine with
a status.  Both keep the state. -/
inductive Outcome where
  | returns (addr : ℕ) (s : FrameState)
  | dies (status : ℕ) (s : FrameState)

/-- `STATUS_NOMEM`. -/
def statusNomem : ℕ := 0xBADB00B5

namespace FrameState

/-- `mmap_set`. -/
def mmapSet (s : FrameState) (bit : ℕ) : FrameState :=
  { s with memoryMap := bitSet s.memoryMap bit }

/-- `mmap_unset`. -/
def mmapUnset (s : FrameState) (bit : ℕ) : FrameState :=
  { s with memoryMap := bitUnset s.memoryMap bit }

/-- `mmap_test`. -/
def mmapTest (s : FrameState) (bit : ℕ) : Bool := bitTest s.memoryMap bit

/-- `blocks_used += n`. -/
def addUsed (s : FrameState) (n : ℕ) : FrameState :=
  { s with blocksUsed := w32 (s.blocksUsed + n) }

/-- `blocks_used -= n`. -/
def subUsed (s : FrameState) (n : ℕ) : FrameState :=
  { s with blocksUsed := sub32 s.blocksUsed n }

variable (s : FrameState) (bit n f : ℕ)

@[simp] theorem mmapTest_mmapSet :
    (s.mmapSet bit).mmapTest f = true ↔ f = bit ∨ s.mmapTest f = true :=
  bitTest_bitSet_iff _ _ _

@[simp] theorem mmapTest_mmapUnset :
    (s.mmapUnset bit).mmapTest f = true ↔ f ≠ bit ∧ s.mmapTest f = true :=
  bitTest_bitUnset_iff _ _ _

-- Proved by `simp only`: a proof by `rfl` would have the two states compared.
@[simp] theorem mmapTest_addUsed : (s.addUsed n).mmapTest f = s.mmapTest f := by
  simp only [mmapTest, addUsed]

@[simp] theorem mmapTest_subUsed : (s.subUsed n).mmapTest f = s.mmapTest f := by
  simp only [mmapTest, subUsed]

@[simp] theorem blocksMax_mmapSet : (s.mmapSet bit).blocksMax = s.blocksMax := by
  simp only [mmapSet]

@[simp] theorem blocksMax_mmapUnset : (s.mmapUnset bit).blocksMax = s.blocksMax := by
  simp only [mmapUnset]

@[simp] theorem blocksMax_addUsed : (s.addUsed n).blocksMax = s.blocksMax := by
  simp only [addUsed]

@[simp] theorem blocksMax_subUsed : (s.subUsed n).blocksMax = s.blocksMax := by
  simp only [subUsed]

end FrameState

open FrameState

/-! ### Regions -/

/-- The loop of `mem_init_region` over `blocks` frames from `at` on. -/
def initFrames : ℕ → ℕ → FrameState → FrameState
  | 0, _, s => s
  | blocks + 1, frame, s =>
      initFrames blocks (frame + 1) (if s.mmapTest frame then (s.mmapUnset frame).subUsed 1 else s)

/-- `mem_init_region`. -/
def memInitRegion (base size : ℕ) (s : FrameState) : FrameState :=
  (initFrames (size / 4096) (base / 4096) s).mmapSet 0

/-- The loop of `mem_deinit_region`. -/
def deinitFrames : ℕ → ℕ → FrameState → FrameState
  | 0, _, s => s
  | blocks + 1, frame, s =>
      deinitFrames blocks (frame + 1) (if s.mmapTest frame then s else (s.mmapSet frame).addUsed 1)

/-- `mem_deinit_region`. -/
def memDeinitRegion (base size : ℕ) (s : FrameState) : FrameState :=
  deinitFrames (size / 4096) (base / 4096) s

/-! ### Searching -/

/-- The inner loop of `find_free_block`: the first clear bit of a word. -/
def findBit (word : BitVec 32) : Option ℕ :=
  (List.range 32).find? (fun j => word &&& (1#32 <<< j) == 0#32)

/-- `find_free_block`; `none` is the result `-1`. -/
def findFreeBlock (s : FrameState) : Option ℕ :=
  (List.range (s.blocksMax / 32)).findSome? fun i =>
    if s.memoryMap i ≠ 0xffffffff#32 then (findBit (s.memoryMap i)).map (i * 4 * 8 + ·) else none

/-- The innermost loop of `mmap_first_free_s`, with `n` rounds to go: are `size` frames counted
as free before the rounds are over? -/
def countFree (s : FrameState) (startingBit size : ℕ) : ℕ → ℕ → ℕ → Bool
  | 0, _, _ => false
  | n + 1, count, free =>
      let free := if s.mmapTest (w32 (startingBit + count)) then free else free + 1
      if free = size then true else countFree s startingBit size n (count + 1) free

/-- `mmap_first_free_s`: the loop runs over `blocks_max` words, not frames, and counts from
`i * 32 + (1 << j)` on. -/
def mmapFirstFreeS (s : FrameState) (size : ℕ) : Option ℕ :=
  if size = 0 then none
  else if size = 1 then findFreeBlock s
  else (List.range s.blocksMax).findSome? fun i =>
    if s.memoryMap i ≠ 0xffffffff#32 then
      ((List.range 32).find? fun j =>
        s.memoryMap i &&& (1#32 <<< j) == 0#32 &&
          countFree s (w32 (i * 32 + 2 ^ j)) size (size + 1) 0 0).map (i * 4 * 8 + ·)
    else none

/-! ### Allocation -/

/-- `alloc_block`. -/
def allocBlock (s : FrameState) : Outcome :=
  if s.blocksMax ≤ s.blocksUsed then .dies (statusNomem + 1) s
  else
    match findFreeBlock s with
    | none => .dies statusNomem s
    | some frame => .returns (w32 (frame * 4096)) ((s.mmapSet frame).addUsed 1)

/-- `free_block`. -/
def freeBlock (s : FrameState) (p : ℕ) : FrameState := (s.mmapUnset (p / 4096)).subUsed 1

/-- `mmap_set` for `n` frames. -/
def setRun (s : FrameState) (frame n : ℕ) : FrameState :=
  (List.range n).foldl (fun s i => s.mmapSet (w32 (frame + i))) s

/-- `mmap_unset` for `n` frames. -/
def unsetRun (s : FrameState) (frame n : ℕ) : FrameState :=
  (List.range n).foldl (fun s i => s.mmapUnset (w32 (frame + i))) s

/-- `alloc_blocks`. -/
def allocBlocks (s : FrameState) (size : ℕ) : Outcome :=
  if sub32 s.blocksUsed s.blocksMax ≤ size then .dies statusNomem s
  else
    match mmapFirstFreeS s size with
    | none => .dies statusNomem s
    | some frame => .returns (w32 (frame * 4096)) ((setRun s frame size).addUsed size)

/-- `free_blocks`. -/
def freeBlocks (s : FrameState) (p size : ℕ) : FrameState :=
  (unsetRun s (p / 4096) size).subUsed size

/-! ### The search finds the lowest clear bit -/

section search

theorem shift_eq_mask {j : ℕ} (i : ℕ) (hj : j < 32) : 1#32 <<< j = mask (i * 32 + j) := by
  rw [mask, show (i * 32 + j) % 32 = j by omega]

/-- The test of the search is the test of the bit. -/
theorem word_test (s : FrameState) (i : ℕ) {j : ℕ} (hj : j < 32) :
    (s.memoryMap i &&& (1#32 <<< j) == 0#32) = !s.mmapTest (i * 32 + j) := by
  rw [shift_eq_mask i hj, mmapTest, bitTest, show (i * 32 + j) / 32 = i by omega]
  simp [bne]

theorem word_eq_ones_iff (s : FrameState) (i : ℕ) :
    s.memoryMap i = 0xffffffff#32 ↔ ∀ j < 32, s.mmapTest (i * 32 + j) = true := by
  rw [eq_ones_iff]
  refine forall₂_congr fun j hj => ?_
  rw [mmapTest, bitTest_eq, show (i * 32 + j) / 32 = i by omega,
    show (i * 32 + j) % 32 = j by omega]

/-- One word is searched as its 32 frames are, with a further test of the clear ones. -/
theorem findWord_test (s : FrameState) (test : ℕ → Bool) (i : ℕ) :
    (if s.memoryMap i ≠ 0xffffffff#32 then
      ((List.range 32).find? fun j => s.memoryMap i &&& (1#32 <<< j) == 0#32 &&
        test (i * 32 + j)).map (i * 4 * 8 + ·)
      else none) =
        ((List.range 32).map (i * 32 + ·)).find? (fun f => !s.mmapTest f && test f) := by
  rw [List.find?_map, show i * 4 * 8 = i * 32 by omega]
  by_cases h : s.memoryMap i = 0xffffffff#32
  · rw [if_neg (not_not.mpr h)]
    have hset := (word_eq_ones_iff s i).mp h
    have hnone : (List.range 32).find? ((fun f => !s.mmapTest f && test f) ∘ (i * 32 + ·)) = none :=
      List.find?_eq_none.mpr fun j hj => by simp [hset j (List.mem_range.mp hj)]
    rw [hnone, Option.map_none]
  · rw [if_pos h]
    congr 1
    refine List.find?_congr fun j hj => ?_
    rw [word_test s i (List.mem_range.mp hj), Function.comp_apply]

theorem findWord_eq (s : FrameState) (i : ℕ) :
    (if s.memoryMap i ≠ 0xffffffff#32 then (findBit (s.memoryMap i)).map (i * 4 * 8 + ·)
      else none) = ((List.range 32).map (i * 32 + ·)).find? (fun f => !s.mmapTest f) := by
  have h := findWord_test s (fun _ => true) i
  simp only [Bool.and_true] at h
  exact h

/-- The search over words is the search over their frames. -/
theorem findFreeBlock_eq (s : FrameState) :
    findFreeBlock s = (List.range (s.blocksMax / 32 * 32)).find? (fun f => !s.mmapTest f) := by
  unfold findFreeBlock
  induction s.blocksMax / 32 with
  | zero => rfl
  | succ n ih =>
      rw [List.range_succ, List.findSome?_append, ih, Nat.succ_mul, List.range_add,
        List.find?_append, List.findSome?_singleton, findWord_eq]

theorem findFreeBlock_eq_some_iff (s : FrameState) (f : ℕ) :
    findFreeBlock s = some f ↔
      f < 32 * (s.blocksMax / 32) ∧ s.mmapTest f = false ∧ ∀ g < f, s.mmapTest g = true := by
  rw [findFreeBlock_eq, List.find?_range_eq_some, Nat.mul_comm 32]
  simp only [Bool.not_eq_true', List.mem_range, Bool.not_not]
  tauto

theorem findFreeBlock_eq_none_iff (s : FrameState) :
    findFreeBlock s = none ↔ ∀ f < 32 * (s.blocksMax / 32), s.mmapTest f = true := by
  rw [findFreeBlock_eq, List.find?_range_eq_none, Nat.mul_comm 32]
  simp only [Bool.not_not]

end search

/-! ### Runs of single frames -/

/-- The allocator with the addresses of the frames that are in use. -/
structure FrameSys where
  st : FrameState
  live : List ℕ

inductive FrameEvent where
  | alloc
  | free (p : ℕ)

/-- Calls of `alloc_block` that return, and of `free_block` for a live frame.  There is no step
after `die`. -/
inductive FrameStep : FrameSys → FrameEvent → FrameSys → Prop
  | alloc {s : FrameSys} {p : ℕ} {st : FrameState} :
      allocBlock s.st = .returns p st → FrameStep s .alloc ⟨st, p :: s.live⟩
  | free {s : FrameSys} {p : ℕ} :
      p ∈ s.live → FrameStep s (.free p) ⟨freeBlock s.st p, s.live.erase p⟩

/-- Frame `f` is the lowest clear one of the complete words. -/
def Lowest (s : FrameState) (f : ℕ) : Prop :=
  f < 32 * (s.blocksMax / 32) ∧ s.mmapTest f = false ∧ ∀ g < f, s.mmapTest g = true

theorem allocBlock_returns {s st : FrameState} {p : ℕ} (h : allocBlock s = .returns p st) :
    ∃ f, Lowest s f ∧ s.blocksUsed < s.blocksMax ∧ p = w32 (f * 4096) ∧
      st = (s.mmapSet f).addUsed 1 := by
  unfold allocBlock at h
  split at h
  · cases h
  case isFalse hlt =>
    cases hf : findFreeBlock s with
    | none => simp [hf] at h
    | some f =>
        simp only [hf, Outcome.returns.injEq] at h
        exact ⟨f, (findFreeBlock_eq_some_iff s f).mp hf, by omega, h.1.symm, h.2.symm⟩

/-- `alloc_block` dies exactly when the counter or the bitmap says that there is no frame, and
then nothing has changed. -/
theorem allocBlock_dies_iff (s : FrameState) :
    (∃ status st, allocBlock s = .dies status st) ↔
      s.blocksMax ≤ s.blocksUsed ∨ ∀ f < 32 * (s.blocksMax / 32), s.mmapTest f = true := by
  unfold allocBlock
  split
  case isTrue h => simp [h]
  case isFalse h =>
    rw [← findFreeBlock_eq_none_iff]
    cases findFreeBlock s with
    | none => simp
    | some f => simpa using h

theorem allocBlock_dies_same {s st : FrameState} {status : ℕ}
    (h : allocBlock s = .dies status st) : st = s := by
  unfold allocBlock at h
  split at h
  · cases h
    rfl
  · cases hf : findFreeBlock s with
    | none =>
        simp only [hf, Outcome.dies.injEq] at h
        exact h.2.symm
    | some f => simp [hf] at h

/-- The frames in use are distinct frames with their bits set. -/
structure UseInv (s : FrameSys) : Prop where
  max_lt : s.st.blocksMax < 1048576
  nodup : s.live.Nodup
  used : ∀ p ∈ s.live, ∃ f < 32 * (s.st.blocksMax / 32), p = 4096 * f ∧ s.st.mmapTest f = true

theorem UseInv.alloc {s : FrameSys} {st : FrameState} {p : ℕ} (h : UseInv s)
    (ha : allocBlock s.st = .returns p st) : UseInv ⟨st, p :: s.live⟩ := by
  have hmax := h.max_lt
  obtain ⟨f, ⟨hlt, hclear, _⟩, _, rfl, rfl⟩ := allocBlock_returns ha
  rw [w32_of_lt (by omega), Nat.mul_comm]
  refine ⟨by simpa using hmax, List.nodup_cons.mpr ⟨fun hp => ?_, h.nodup⟩, ?_⟩
  · obtain ⟨g, _, hg, hset⟩ := h.used _ hp
    obtain rfl : f = g := by omega
    simp [hclear] at hset
  · simp only [List.forall_mem_cons, blocksMax_addUsed, blocksMax_mmapSet, mmapTest_addUsed,
      mmapTest_mmapSet]
    refine ⟨⟨f, hlt, rfl, .inl rfl⟩, fun p hp => ?_⟩
    obtain ⟨g, hg, hpg, hset⟩ := h.used p hp
    exact ⟨g, hg, hpg, .inr hset⟩

theorem UseInv.free {s : FrameSys} {p : ℕ} (h : UseInv s) (hp : p ∈ s.live) :
    UseInv ⟨freeBlock s.st p, s.live.erase p⟩ := by
  refine ⟨by simpa [freeBlock] using h.max_lt, h.nodup.erase p, fun q hq => ?_⟩
  obtain ⟨hqp, hql⟩ := h.nodup.mem_erase_iff.mp hq
  obtain ⟨f, _, rfl, _⟩ := h.used p hp
  obtain ⟨g, hg, rfl, hset⟩ := h.used q hql
  simp only [freeBlock, blocksMax_subUsed, blocksMax_mmapUnset, mmapTest_subUsed,
    mmapTest_mmapUnset]
  exact ⟨g, hg, rfl, by omega, hset⟩

theorem step_useInv {s s' : FrameSys} {ev : FrameEvent} (h : UseInv s) (hs : FrameStep s ev s') :
    UseInv s' := by
  cases hs with
  | alloc ha => exact h.alloc ha
  | free hp => exact h.free hp

/-- The contract of the single-frame functions in one state. -/
structure SingleFrames (s : FrameSys) : Prop where
  /-- No two frames in use are the same. -/
  distinct : s.live.Nodup
  /-- A frame that is returned is the lowest clear one, and its bit is the only one changed. -/
  returns : ∀ p st, allocBlock s.st = .returns p st → ∃ f, Lowest s.st f ∧ p = 4096 * f ∧
    (∀ g, st.mmapTest g = true ↔ g = f ∨ s.st.mmapTest g = true) ∧
    st.blocksUsed = s.st.blocksUsed + 1 ∧ st.blocksMax = s.st.blocksMax
  /-- The machine dies when there is no frame, and only then. -/
  dies : (∃ status st, allocBlock s.st = .dies status st) ↔
    s.st.blocksMax ≤ s.st.blocksUsed ∨
      ∀ f < 32 * (s.st.blocksMax / 32), s.st.mmapTest f = true
  /-- It dies with the bitmap as it was. -/
  unchanged : ∀ status st, allocBlock s.st = .dies status st → st.memoryMap = s.st.memoryMap
  /-- A release clears the bit of the frame, which was set, and no other. -/
  frees : ∀ p ∈ s.live, ∃ f, p = 4096 * f ∧ s.st.mmapTest f = true ∧
    ∀ g, (freeBlock s.st p).mmapTest g = true ↔ g ≠ f ∧ s.st.mmapTest g = true

theorem UseInv.singleFrames {s : FrameSys} (h : UseInv s) : SingleFrames s where
  distinct := h.nodup
  returns p st hs := by
    obtain ⟨f, hf, hlt, rfl, rfl⟩ := allocBlock_returns hs
    have hmax := h.max_lt
    have hflt := hf.1
    refine ⟨f, hf, ?_, fun g => by simp, ?_, by simp⟩
    · rw [w32_of_lt (by omega), Nat.mul_comm]
    · simp only [addUsed, mmapSet]
      exact w32_of_lt (by omega)
  dies := allocBlock_dies_iff s.st
  unchanged status st hs := by rw [allocBlock_dies_same hs]
  frees p hp := by
    obtain ⟨f, _, rfl, hset⟩ := h.used p hp
    refine ⟨f, rfl, hset, fun g => ?_⟩
    rw [freeBlock, Nat.mul_div_cancel_left f (by decide), mmapTest_subUsed, mmapTest_mmapUnset]

/-- In every state that calls of `alloc_block` and `free_block` reach from any bitmap and any
counter, the contract holds. -/
theorem frames_run {s₀ : FrameState} {tr : List (FrameSys × FrameEvent)} {s : FrameSys}
    (hmax : s₀.blocksMax < 1048576) (hrun : Run FrameStep ⟨s₀, []⟩ tr s) : SingleFrames s :=
  have h₀ : UseInv ⟨s₀, []⟩ := ⟨hmax, .nil, by simp⟩
  (hrun.invariant (G := fun _ _ => True) (fun _ _ _ h _ hs => step_useInv h hs) h₀
    fun _ _ => trivial).singleFrames

/-- The state after a call, when it returns. -/
def FrameSys.next (s : FrameSys) : FrameEvent → FrameSys
  | .alloc =>
      match allocBlock s.st with
      | .returns p st => ⟨st, p :: s.live⟩
      | .dies _ _ => s
  | .free p => ⟨freeBlock s.st p, s.live.erase p⟩

/-- The call returns, and a frame that it releases is in use. -/
def FrameEvent.Returns (s : FrameSys) : FrameEvent → Prop
  | .alloc => (findFreeBlock s.st).isSome ∧ s.st.blocksUsed < s.st.blocksMax
  | .free p => p ∈ s.live

instance (s : FrameSys) : (ev : FrameEvent) → Decidable (ev.Returns s)
  | .alloc => inferInstanceAs (Decidable (_ ∧ _))
  | .free p => inferInstanceAs (Decidable (p ∈ s.live))

theorem FrameStep.next {s : FrameSys} {ev : FrameEvent} (h : ev.Returns s) :
    FrameStep s ev (s.next ev) := by
  cases ev with
  | alloc =>
      obtain ⟨f, hf⟩ := Option.isSome_iff_exists.mp h.1
      have halloc : allocBlock s.st = .returns (w32 (f * 4096)) ((s.st.mmapSet f).addUsed 1) := by
        simp only [allocBlock, hf, h.2.not_ge, if_false]
      simp only [FrameSys.next, halloc]
      exact .alloc halloc
  | free p => exact .free h

/-- Three requests, the release of the second frame and of the first, and two requests. -/
def fiveRequests : List FrameEvent :=
  [.alloc, .alloc, .alloc, .free 4096, .free 0, .alloc, .alloc]

/-- The contract after these calls on an empty bitmap of 64 frames. -/
theorem frames_run_five :
    (fiveRequests.foldl FrameSys.next ⟨⟨fun _ => 0, 0, 64⟩, []⟩).live = [4096, 0, 8192] ∧
      SingleFrames (fiveRequests.foldl FrameSys.next ⟨⟨fun _ => 0, 0, 64⟩, []⟩) := by
  have hreturn : ∀ p ∈ traceOf FrameSys.next ⟨⟨fun _ => 0, 0, 64⟩, []⟩ fiveRequests,
      p.2.Returns p.1 := by decide +kernel
  have hmax : (⟨fun _ => 0, 0, 64⟩ : FrameState).blocksMax < 1048576 := by decide
  refine ⟨by decide +kernel, ?_⟩
  exact frames_run hmax (.of_events fiveRequests _ fun p hp => .next (hreturn p hp))

end Owmice.Frames
