import Mathlib.Data.ZMod.Basic
import Owmice.PmemInit

/-! # Frame accounting

`blocks_used` is to be the number of set bits among the frames `0 .. blocks_max - 1`.  The two
are updated apart from each other, so what counts is their difference modulo `2 ^ 32`
(`excess`): the loops over regions and the single-frame functions keep it.

`pmem_init` starts with a difference: it counts all frames as used, but fills the bitmap with
the byte `0x0f`, which sets half of the bits.  Afterwards a difference arises when
`mem_deinit_region` is given frames without a bit, and when `alloc_blocks` hands out frames that
are not free.

* `Accounted`: what the counter is relied on for;
* `frames_counted_iff`: when it holds in every state from `pmem_init` on;
* `not_startGood`: with fewer odd regions than half of the frames, it never does. -/

namespace Owmice.Frames

open FrameState

/-- `get_free_mem`. -/
def getFreeMem (s : FrameState) : ℕ := w32 (sub32 s.blocksMax s.blocksUsed * 4096)

/-- The number of clear bits. -/
def clearFrames (s : FrameState) : ℕ :=
  ((Finset.range s.blocksMax).filter (s.mmapTest · = false)).card

/-- The counter is the number of set bits. -/
def Counted (s : FrameState) : Prop := s.blocksUsed = setBits s.memoryMap s.blocksMax

/-- The counter is right, `get_free_mem` reports the free frames, and the test of `alloc_block`
fails when there is none. -/
structure Accounted (s : FrameState) : Prop where
  counted : Counted s
  free : getFreeMem s = 4096 * clearFrames s
  exhausted : s.blocksMax ≤ s.blocksUsed ↔ ∀ f < s.blocksMax, s.mmapTest f = true

theorem clearFrames_add (s : FrameState) :
    setBits s.memoryMap s.blocksMax + clearFrames s = s.blocksMax := by
  have h := Finset.card_filter_add_card_filter_not (s := Finset.range s.blocksMax)
    (s.mmapTest · = true)
  simp only [Bool.not_eq_true, Finset.card_range] at h
  exact h

/-- The other parts follow from the counter. -/
theorem accounted_iff {s : FrameState} (hmax : s.blocksMax < 1048576) :
    Accounted s ↔ Counted s := by
  refine ⟨Accounted.counted, fun h => ⟨h, ?_, ?_⟩⟩
  · have hsum := clearFrames_add s
    rw [Counted] at h
    rw [getFreeMem, sub32_of_le (by omega) (by omega), w32_of_lt (by omega)]
    omega
  · rw [Counted] at h
    have hle := setBits_le s.memoryMap s.blocksMax
    have hall := setBits_eq_iff s.memoryMap s.blocksMax
    simp only [mmapTest, ← hall, h]
    omega

theorem mmapTest_mmapSet_of_ne {s : FrameState} {f g : ℕ} (h : g ≠ f) :
    (s.mmapSet f).mmapTest g = s.mmapTest g := by
  rw [mmapTest, mmapSet, bitTest_bitSet, decide_eq_false h, Bool.false_or, mmapTest]

/-! ### The difference between the counter and the bitmap -/

/-- The counter less the number of set bits, as a 32-bit number. -/
def excess (s : FrameState) : ZMod 4294967296 := s.blocksUsed - setBits s.memoryMap s.blocksMax

theorem cast_w32 (n : ℕ) : ((w32 n : ℕ) : ZMod 4294967296) = n := by
  rw [w32]
  exact ZMod.natCast_mod n _

theorem cast_sub32 (a b : ℕ) : ((sub32 a b : ℕ) : ZMod 4294967296) = a - b := by
  have hle : w32 b ≤ 4294967296 := (w32_lt b).le
  rw [sub32, cast_w32, Nat.cast_add, Nat.cast_sub hle, cast_w32, ZMod.natCast_self]
  ring

/-- Words are equal if they are equal as 32-bit numbers. -/
theorem cast_inj {a b : ℕ} (ha : a < 4294967296) (hb : b < 4294967296) :
    (a : ZMod 4294967296) = b ↔ a = b := by
  rw [ZMod.natCast_eq_natCast_iff', Nat.mod_eq_of_lt ha, Nat.mod_eq_of_lt hb]

theorem counted_iff {s : FrameState} (hmax : s.blocksMax < 1048576)
    (hused : s.blocksUsed < 4294967296) : Counted s ↔ excess s = 0 := by
  have hle := setBits_le s.memoryMap s.blocksMax
  rw [Counted, excess, sub_eq_zero, cast_inj hused (by omega)]

section single

variable {s : FrameState} {f : ℕ}

theorem excess_addUsed (s : FrameState) (n : ℕ) : excess (s.addUsed n) = excess s + n := by
  simp only [excess, addUsed, cast_w32, Nat.cast_add]
  ring

theorem excess_subUsed (s : FrameState) (n : ℕ) : excess (s.subUsed n) = excess s - n := by
  simp only [excess, subUsed, cast_sub32]
  ring

theorem excess_mmapSet (hf : f < s.blocksMax) (hclear : s.mmapTest f = false) :
    excess (s.mmapSet f) = excess s - 1 := by
  simp only [excess, mmapSet, setBits_bitSet hf hclear, Nat.cast_add, Nat.cast_one]
  ring

theorem excess_mmapUnset (hf : f < s.blocksMax) (hset : s.mmapTest f = true) :
    excess (s.mmapUnset f) = excess s + 1 := by
  have h := setBits_bitUnset hf hset
  simp only [excess, mmapUnset, ← h, Nat.cast_add, Nat.cast_one]
  ring

theorem excess_mmapSet_of_set (hset : s.mmapTest f = true) : excess (s.mmapSet f) = excess s := by
  simp only [excess, mmapSet, setBits_bitSet_of_set hset]

theorem excess_mmapSet_of_le (hf : s.blocksMax ≤ f) : excess (s.mmapSet f) = excess s := by
  have h : setBits (bitSet s.memoryMap f) s.blocksMax = setBits s.memoryMap s.blocksMax :=
    setBits_congr fun b hb => by
      rw [bitTest_bitSet, decide_eq_false (by omega), Bool.false_or]
  simp only [excess, mmapSet, h]

end single

/-! ### Regions -/

theorem inFrames_zero (frame g : ℕ) : (frame ≤ g ∧ g < frame + 0) = False := by
  simp only [eq_iff_iff, iff_false]
  omega

theorem inFrames_succ (frame blocks g : ℕ) : (frame ≤ g ∧ g < frame + (blocks + 1)) =
    (g = frame ∨ (frame + 1 ≤ g ∧ g < frame + 1 + blocks)) := by
  simp only [eq_iff_iff]
  omega

theorem initFrames_mmapTest {g blocks frame : ℕ} {s : FrameState} :
    (initFrames blocks frame s).mmapTest g = true ↔
      s.mmapTest g = true ∧ ¬ (frame ≤ g ∧ g < frame + blocks) := by
  induction blocks generalizing frame s with
  | zero => rw [initFrames, inFrames_zero, not_false_eq_true, and_true]
  | succ blocks ih =>
      rw [initFrames, ih, inFrames_succ]
      split
      · rw [mmapTest_subUsed, mmapTest_mmapUnset]
        tauto
      case isFalse hclear =>
        have hne : s.mmapTest g = true → g ≠ frame := fun h he => hclear (he ▸ h)
        tauto

theorem initFrames_blocksMax (blocks frame : ℕ) (s : FrameState) :
    (initFrames blocks frame s).blocksMax = s.blocksMax := by
  induction blocks generalizing frame s with
  | zero => rfl
  | succ blocks ih =>
      rw [initFrames, ih]
      split
      · rw [blocksMax_subUsed, blocksMax_mmapUnset]
      · rfl

/-- Freeing frames that have a bit keeps the difference. -/
theorem excess_initFrames (blocks frame : ℕ) (s : FrameState) (h : frame + blocks ≤ s.blocksMax) :
    excess (initFrames blocks frame s) = excess s := by
  induction blocks generalizing frame s with
  | zero => rfl
  | succ blocks ih =>
      rw [initFrames]
      split
      case isTrue hset =>
        rw [ih _ _ (by simp; omega), excess_subUsed, excess_mmapUnset (by omega) hset]
        simp
      case isFalse => exact ih _ _ (by omega)

theorem deinitFrames_mmapTest {g blocks frame : ℕ} {s : FrameState} :
    (deinitFrames blocks frame s).mmapTest g = true ↔
      s.mmapTest g = true ∨ (frame ≤ g ∧ g < frame + blocks) := by
  induction blocks generalizing frame s with
  | zero => rw [deinitFrames, inFrames_zero, or_false]
  | succ blocks ih =>
      rw [deinitFrames, ih, inFrames_succ]
      split
      case isTrue hset =>
        have heq : g = frame → s.mmapTest g = true := fun he => he ▸ hset
        tauto
      · rw [mmapTest_addUsed, mmapTest_mmapSet]
        tauto

theorem deinitFrames_blocksMax (blocks frame : ℕ) (s : FrameState) :
    (deinitFrames blocks frame s).blocksMax = s.blocksMax := by
  induction blocks generalizing frame s with
  | zero => rfl
  | succ blocks ih =>
      rw [deinitFrames, ih]
      split
      · rfl
      · rw [blocksMax_addUsed, blocksMax_mmapSet]

/-- Frame `f` is marked as used although it has no bit. -/
def strayFrame (s : FrameState) (f : ℕ) : Bool := decide (s.blocksMax ≤ f) && !s.mmapTest f

/-- Marking frames as used adds the frames without a bit to the difference. -/
theorem excess_deinitFrames (blocks frame : ℕ) (s : FrameState) :
    excess (deinitFrames blocks frame s) =
      excess s + ((List.range' frame blocks).countP (strayFrame s) : ℕ) := by
  induction blocks generalizing frame s with
  | zero => simp [deinitFrames]
  | succ blocks ih =>
      rw [deinitFrames, List.range'_succ, List.countP_cons]
      split
      case isTrue hset =>
        rw [ih]
        simp [strayFrame, hset]
      case isFalse hclear =>
        simp only [Bool.not_eq_true] at hclear
        -- the bit that has been set lies before the frames that follow
        have hrest : (List.range' (frame + 1) blocks).countP
            (strayFrame ((s.mmapSet frame).addUsed 1)) =
              (List.range' (frame + 1) blocks).countP (strayFrame s) := by
          refine List.countP_congr fun g hg => ?_
          have hne : g ≠ frame := by
            have := (List.mem_range'_1.mp hg).1
            omega
          rw [strayFrame, strayFrame, blocksMax_addUsed, blocksMax_mmapSet, mmapTest_addUsed,
            mmapTest_mmapSet_of_ne hne]
        rw [ih, hrest, excess_addUsed]
        by_cases hf : frame < s.blocksMax
        · rw [excess_mmapSet hf hclear]
          simp [strayFrame, hclear, hf]
        · rw [excess_mmapSet_of_le (by omega)]
          simp [strayFrame, hclear, not_lt.mp hf]
          ring

/-! ### Runs of frames -/

section runs

variable {s : FrameState} {frame : ℕ}

theorem setRun_succ (s : FrameState) (frame n : ℕ) :
    setRun s frame (n + 1) = (setRun s frame n).mmapSet (w32 (frame + n)) := by
  rw [setRun, List.range_succ, List.foldl_append]
  rfl

theorem unsetRun_succ (s : FrameState) (frame n : ℕ) :
    unsetRun s frame (n + 1) = (unsetRun s frame n).mmapUnset (w32 (frame + n)) := by
  rw [unsetRun, List.range_succ, List.foldl_append]
  rfl

@[simp] theorem setRun_blocksMax (n : ℕ) : (setRun s frame n).blocksMax = s.blocksMax := by
  induction n with
  | zero => rfl
  | succ n ih => rw [setRun_succ, blocksMax_mmapSet, ih]

@[simp] theorem unsetRun_blocksMax (n : ℕ) : (unsetRun s frame n).blocksMax = s.blocksMax := by
  induction n with
  | zero => rfl
  | succ n ih => rw [unsetRun_succ, blocksMax_mmapUnset, ih]

theorem setRun_blocksUsed (n : ℕ) : (setRun s frame n).blocksUsed = s.blocksUsed := by
  induction n with
  | zero => rfl
  | succ n ih => rw [setRun_succ, mmapSet, ih]

theorem setRun_mmapTest {g : ℕ} (n : ℕ) : (setRun s frame n).mmapTest g = true ↔
    (∃ i < n, g = w32 (frame + i)) ∨ s.mmapTest g = true := by
  induction n with
  | zero =>
      change s.mmapTest g = true ↔ _
      simp
  | succ n ih =>
      rw [setRun_succ, mmapTest_mmapSet, ih, Nat.exists_lt_succ_right, or_left_comm, or_assoc]

theorem unsetRun_mmapTest {g : ℕ} (n : ℕ) : (unsetRun s frame n).mmapTest g = true ↔
    (∀ i < n, g ≠ w32 (frame + i)) ∧ s.mmapTest g = true := by
  induction n with
  | zero =>
      change s.mmapTest g = true ↔ _
      simp
  | succ n ih =>
      rw [unsetRun_succ, mmapTest_mmapUnset, ih, Nat.forall_lt_succ_right]
      tauto

/-- Frames of a run of fewer than `2 ^ 32` are different. -/
theorem w32_add_ne {i n : ℕ} (hi : i < n) (hn : n < 4294967296) :
    w32 (frame + n) ≠ w32 (frame + i) := by
  simp only [w32]
  omega

/-- Frame `f` has a bit, and it is clear. -/
def freeFrame (s : FrameState) (f : ℕ) : Bool := decide (f < s.blocksMax) && !s.mmapTest f

/-- Taking a run changes the difference by the frames that were not free. -/
theorem excess_setRun (n : ℕ) (hn : n < 4294967296) : excess (setRun s frame n) =
    excess s - ((List.range n).countP fun i => freeFrame s (w32 (frame + i)) : ℕ) := by
  induction n with
  | zero => simp [setRun]
  | succ n ih =>
      specialize ih (by omega)
      have hsame : (setRun s frame n).mmapTest (w32 (frame + n)) =
          s.mmapTest (w32 (frame + n)) := by
        rw [Bool.eq_iff_iff, setRun_mmapTest]
        constructor
        · rintro (⟨i, hi, he⟩ | h)
          · exact absurd he (w32_add_ne hi (by omega))
          · exact h
        · exact .inr
      rw [setRun_succ, List.range_succ, List.countP_append, List.countP_singleton]
      by_cases hlt : w32 (frame + n) < s.blocksMax
      · cases htest : s.mmapTest (w32 (frame + n)) with
        | true =>
            rw [excess_mmapSet_of_set (hsame.trans htest), ih]
            simp [freeFrame, htest]
        | false =>
            rw [excess_mmapSet (by simpa using hlt) (hsame.trans htest), ih]
            simp [freeFrame, htest, hlt]
            ring
      · rw [excess_mmapSet_of_le (by simpa using hlt), ih]
        simp [freeFrame, hlt]

/-- A run keeps the difference, with the counter, exactly if all its frames were free. -/
theorem excess_setRun_addUsed {n : ℕ} (hn : n < 4294967296) :
    excess ((setRun s frame n).addUsed n) = excess s ↔
      ∀ i < n, freeFrame s (w32 (frame + i)) = true := by
  obtain ⟨k, hk⟩ : ∃ k, k = (List.range n).countP fun i => freeFrame s (w32 (frame + i)) :=
    ⟨_, rfl⟩
  have hle : k ≤ n := by
    rw [hk]
    exact List.countP_le_length.trans_eq List.length_range
  have hall : k = n ↔ ∀ i < n, freeFrame s (w32 (frame + i)) = true := by
    have h := List.countP_eq_length (l := List.range n)
      (p := fun i => freeFrame s (w32 (frame + i)))
    rw [← hk, List.length_range] at h
    simpa only [List.mem_range] using h
  rw [excess_addUsed, excess_setRun n hn, ← hk, ← hall, ← cast_inj (by omega) hn]
  constructor
  · intro h
    exact (sub_eq_zero.mp (by linear_combination h)).symm
  · intro h
    rw [h]
    ring

/-- Giving back a run of used frames keeps the difference. -/
theorem excess_unsetRun_subUsed (n : ℕ) (hn : n < 4294967296)
    (h : ∀ i < n, w32 (frame + i) < s.blocksMax ∧ s.mmapTest (w32 (frame + i)) = true) :
    excess (unsetRun s frame n) = excess s + n := by
  induction n with
  | zero => simp [unsetRun]
  | succ n ih =>
      specialize ih (by omega) fun i hi => h i (by omega)
      obtain ⟨hlt, hset⟩ := h n (by omega)
      have hset' : (unsetRun s frame n).mmapTest (w32 (frame + n)) = true := by
        rw [unsetRun_mmapTest]
        exact ⟨fun i hi => w32_add_ne hi (by omega), hset⟩
      rw [unsetRun_succ, excess_mmapUnset (by simpa using hlt) hset', ih]
      push_cast
      ring

end runs

/-! ### From `pmem_init` on -/

/-- The region of the entry lies, in whole frames, among those that have a bit. -/
def MmapEntry.Managed (blocksMax : ℕ) (e : MmapEntry) : Prop :=
  e.baseAddrLow / 4096 + e.lengthLow / 4096 ≤ blocksMax

/-- The region has frame 0. -/
def MmapEntry.coversZero (e : MmapEntry) : Bool :=
  e.baseAddrLow / 4096 = 0 && decide (0 < e.lengthLow / 4096)

/-- How often `mmap_set (0)` marks frame 0 as used without counting it; `zero` tells whether its
bit is set before the entries. -/
def uncounted : Bool → List MmapEntry → ℕ
  | _, [] => 0
  | zero, e :: entries =>
      if e.Usable then (if zero && !e.coversZero then 0 else 1) + uncounted true entries
      else uncounted (zero || e.coversZero) entries

theorem coversZero_iff (e : MmapEntry) : e.coversZero = true ↔
    e.baseAddrLow / 4096 ≤ 0 ∧ 0 < e.baseAddrLow / 4096 + e.lengthLow / 4096 := by
  simp only [MmapEntry.coversZero, Bool.and_eq_true, decide_eq_true_eq]
  omega

/-- The frames after one entry of the map. -/
def framesEntry (s : FrameState) (e : MmapEntry) : FrameState :=
  if e.Usable then memInitRegion e.baseAddrLow e.lengthLow s
  else memDeinitRegion e.baseAddrLow e.lengthLow s

theorem pmemEntry_frames (s : Boot) (e : MmapEntry) :
    (pmemEntry s e).frames = framesEntry s.frames e := by
  unfold pmemEntry addKernelMem framesEntry alloc
  split
  · simp only
    split
    · rfl
    · rfl
  · rfl

theorem foldl_pmemEntry_frames (entries : List MmapEntry) (s : Boot) :
    (entries.foldl pmemEntry s).frames = entries.foldl framesEntry s.frames := by
  induction entries generalizing s with
  | nil => rfl
  | cons e entries ih => rw [List.foldl_cons, ih, pmemEntry_frames, List.foldl_cons]

theorem framesEntry_blocksMax (s : FrameState) (e : MmapEntry) :
    (framesEntry s e).blocksMax = s.blocksMax := by
  unfold framesEntry memInitRegion memDeinitRegion
  split
  · rw [blocksMax_mmapSet, initFrames_blocksMax]
  · rw [deinitFrames_blocksMax]

/-- Bit 0 after one entry. -/
theorem framesEntry_zero (s : FrameState) (e : MmapEntry) :
    (framesEntry s e).mmapTest 0 = if e.Usable then true else s.mmapTest 0 || e.coversZero := by
  unfold framesEntry
  split
  · rw [memInitRegion, mmapTest_mmapSet]
    exact .inl rfl
  · rw [Bool.eq_iff_iff, memDeinitRegion, deinitFrames_mmapTest, Bool.or_eq_true, coversZero_iff]

theorem excess_framesEntry {s : FrameState} {e : MmapEntry} (hpos : 0 < s.blocksMax)
    (h : e.Managed s.blocksMax) : excess (framesEntry s e) =
      if e.Usable ∧ (s.mmapTest 0 && !e.coversZero) = false then excess s - 1 else excess s := by
  rw [MmapEntry.Managed] at h
  unfold framesEntry memInitRegion memDeinitRegion
  by_cases hu : e.Usable
  · simp only [hu, if_true, true_and]
    obtain ⟨s', hs'⟩ : ∃ s', s' = initFrames (e.lengthLow / 4096) (e.baseAddrLow / 4096) s :=
      ⟨_, rfl⟩
    have hex : excess s' = excess s := hs' ▸ excess_initFrames _ _ s h
    have hmax : s'.blocksMax = s.blocksMax := hs' ▸ initFrames_blocksMax _ _ s
    have hzero : s'.mmapTest 0 = (s.mmapTest 0 && !e.coversZero) := by
      rw [Bool.eq_iff_iff, hs', initFrames_mmapTest, ← coversZero_iff]
      simp
    rw [← hs', ← hex, ← hzero]
    cases htest : s'.mmapTest 0 with
    | true => simpa using excess_mmapSet_of_set htest
    | false => simpa using excess_mmapSet (hmax ▸ hpos) htest
  · simp only [hu, if_false, false_and]
    rw [excess_deinitFrames]
    have hnone : (List.range' (e.baseAddrLow / 4096) (e.lengthLow / 4096)).countP (strayFrame s) =
        0 := by
      refine List.countP_eq_zero.mpr fun f hf => ?_
      have := (List.mem_range'_1.mp hf).2
      simp only [strayFrame, Bool.and_eq_true, decide_eq_true_eq, not_and]
      omega
    rw [hnone]
    simp

/-- What the entries leave of the difference. -/
theorem excess_foldl_framesEntry (entries : List MmapEntry) (s : FrameState)
    (hpos : 0 < s.blocksMax) (h : ∀ e ∈ entries, e.Managed s.blocksMax) :
    excess (entries.foldl framesEntry s) = excess s - uncounted (s.mmapTest 0) entries := by
  induction entries generalizing s with
  | nil => simp [uncounted]
  | cons e entries ih =>
      obtain ⟨he, hes⟩ := List.forall_mem_cons.mp h
      have hmax := framesEntry_blocksMax s e
      rw [List.foldl_cons, ih _ (hmax ▸ hpos) (hmax ▸ hes), excess_framesEntry hpos he,
        framesEntry_zero, uncounted]
      by_cases hu : e.Usable
      · simp only [hu, if_true, true_and]
        cases (s.mmapTest 0 && !e.coversZero)
        · simp
          ring
        · simp
      · simp only [hu, if_false, false_and]

/-- The frames that `pmem_init` starts with. -/
def startFrames (mbt : MultibootInfo) (s : Boot) : FrameState := (pmemStart mbt s).frames

/-- What `memset` sets, what the last bits of the map are, and the marks of frame 0 that are not
counted make up for the counter, which starts with all frames. -/
def StartGood (mbt : MultibootInfo) (s : Boot) (entries : List MmapEntry) : Prop :=
  let st := startFrames mbt s
  st.blocksMax = 0 ∨
    w32 (setBits st.memoryMap st.blocksMax + uncounted (st.mmapTest 0) entries) = st.blocksMax

theorem startFrames_blocksMax (mbt : MultibootInfo) (s : Boot) :
    (startFrames mbt s).blocksMax = w32 (mbt.memUpper * 1024) / 4096 := rfl

theorem startFrames_lt (mbt : MultibootInfo) (s : Boot) :
    (startFrames mbt s).blocksMax < 1048576 := by
  have := w32_lt (mbt.memUpper * 1024)
  rw [startFrames_blocksMax]
  omega

/-- The counter stays a 32-bit number. -/
theorem initFrames_blocksUsed (blocks frame : ℕ) {s : FrameState}
    (h : s.blocksUsed < 4294967296) : (initFrames blocks frame s).blocksUsed < 4294967296 := by
  induction blocks generalizing frame s with
  | zero => exact h
  | succ blocks ih =>
      rw [initFrames]
      split
      · exact ih _ (sub32_lt _ _)
      · exact ih _ h

theorem deinitFrames_blocksUsed (blocks frame : ℕ) {s : FrameState}
    (h : s.blocksUsed < 4294967296) : (deinitFrames blocks frame s).blocksUsed < 4294967296 := by
  induction blocks generalizing frame s with
  | zero => exact h
  | succ blocks ih =>
      rw [deinitFrames]
      split
      · exact ih _ h
      · exact ih _ (w32_lt _)

theorem foldl_framesEntry_blocks (entries : List MmapEntry) {s : FrameState}
    (h : s.blocksUsed < 4294967296) : (entries.foldl framesEntry s).blocksUsed < 4294967296 ∧
      (entries.foldl framesEntry s).blocksMax = s.blocksMax := by
  induction entries generalizing s with
  | nil => exact ⟨h, rfl⟩
  | cons e entries ih =>
      have he : (framesEntry s e).blocksUsed < 4294967296 := by
        unfold framesEntry
        split
        · exact initFrames_blocksUsed _ _ h
        · exact deinitFrames_blocksUsed _ _ h
      obtain ⟨h1, h2⟩ := ih he
      exact ⟨h1, h2.trans (framesEntry_blocksMax s e)⟩

/-- Regions without a frame leave the counter alone. -/
theorem foldl_framesEntry_empty (entries : List MmapEntry) (s : FrameState)
    (h : ∀ e ∈ entries, e.lengthLow / 4096 = 0) :
    (entries.foldl framesEntry s).blocksUsed = s.blocksUsed := by
  induction entries generalizing s with
  | nil => rfl
  | cons e entries ih =>
      obtain ⟨he, hes⟩ := List.forall_mem_cons.mp h
      rw [List.foldl_cons, ih _ hes, framesEntry, memInitRegion, memDeinitRegion, he]
      split
      · rfl
      · rfl

/-- The counter is right behind `pmem_init` exactly if the map makes up for the start. -/
theorem counted_start_iff {mbt : MultibootInfo} {s : Boot} {entries : List MmapEntry}
    (hin : ∀ e ∈ entries, e.Managed (startFrames mbt s).blocksMax) :
    Counted (entries.foldl pmemEntry (pmemStart mbt s)).frames ↔ StartGood mbt s entries := by
  have hlt := startFrames_lt mbt s
  obtain ⟨st, hst⟩ : ∃ st, st = startFrames mbt s := ⟨_, rfl⟩
  have hused : st.blocksUsed = st.blocksMax := by rw [hst]; rfl
  have hframes : (entries.foldl pmemEntry (pmemStart mbt s)).frames =
      entries.foldl framesEntry st := by
    rw [foldl_pmemEntry_frames, hst, startFrames]
  simp only [StartGood, ← hst] at hin hlt ⊢
  rw [hframes]
  obtain ⟨h1, h2⟩ := foldl_framesEntry_blocks entries (s := st) (by omega)
  by_cases hpos : st.blocksMax = 0
  · have hempty : ∀ e ∈ entries, e.lengthLow / 4096 = 0 := fun e he => by
      have := hin e he
      rw [MmapEntry.Managed] at this
      omega
    simp only [hpos, true_or, iff_true]
    rw [Counted, foldl_framesEntry_empty entries st hempty, h2, hused, hpos]
    rfl
  · rw [counted_iff (h2 ▸ hlt) h1, excess_foldl_framesEntry entries st (by omega) hin, excess,
      hused, ← cast_inj (w32_lt _) (by omega), cast_w32]
    simp only [hpos, false_or, Nat.cast_add]
    constructor
    · intro h
      linear_combination -h
    · intro h
      linear_combination -h

/-- `memset` with `0x0f` sets the lower half of every byte. -/
theorem bitTest_memsetMap (map : Bitmap) {len b : ℕ} (hb : b < 8 * len) :
    bitTest (memsetMap map len) b = decide (b % 8 < 4) := by
  have hlt : b % 32 < 32 := Nat.mod_lt _ (by decide)
  have hmask : b % 32 < 8 * min 4 (len - 4 * (b / 32)) := by omega
  have hbyte : ∀ j < 32, (0x0f0f0f0f#32 : BitVec 32).getLsbD j = decide (j % 8 < 4) := by decide
  rw [bitTest_eq, memsetMap]
  simp only [BitVec.getLsbD_or, BitVec.getLsbD_and, BitVec.getLsbD_not, BitVec.getLsbD_ofNat,
    Nat.testBit_two_pow_sub_one, hmask, hbyte _ hlt, hlt]
  simp [show b % 32 % 8 = b % 8 by omega]

/-- So half of the bits of the buffer. -/
theorem setBits_memsetMap (map : Bitmap) (len : ℕ) :
    setBits (memsetMap map len) (8 * len) = 4 * len := by
  have hcount : ∀ n, Nat.count (fun b => b % 8 < 4) (8 * n) = 4 * n := by
    intro n
    induction n with
    | zero => rfl
    | succ n ih =>
        rw [Nat.mul_succ, Nat.count_add, ih]
        have hbyte : (fun k => (8 * n + k) % 8 < 4) = fun k => k % 8 < 4 := by
          funext k
          rw [Nat.mul_add_mod]
        simp only [hbyte]
        rfl
  rw [← hcount len, Nat.count_eq_card_filter_range, setBits]
  congr 1
  refine Finset.filter_congr fun b hb => ?_
  rw [bitTest_memsetMap map (Finset.mem_range.mp hb), decide_eq_true_eq]

theorem setBits_le_add (map : Bitmap) {a n : ℕ} (h : a ≤ n) :
    setBits map n ≤ setBits map a + (n - a) := by
  obtain ⟨b, rfl⟩ := Nat.exists_eq_add_of_le h
  have hcount : ∀ n, setBits map n = Nat.count (bitTest map · = true) n := fun n => by
    rw [Nat.count_eq_card_filter_range, setBits]
  rw [hcount, hcount, Nat.count_add, Nat.add_sub_cancel_left]
  exact Nat.add_le_add_left (Nat.count_le _) _

/-- As long as frame 0 is marked without being counted less often than half of the frames of the
buffer, the counter is wrong behind `pmem_init`. -/
theorem not_startGood {mbt : MultibootInfo} {s : Boot} {entries : List MmapEntry}
    (hk : uncounted ((startFrames mbt s).mmapTest 0) entries < 4 * bitmapBytes mbt) :
    ¬ StartGood mbt s entries := by
  have hlt := startFrames_lt mbt s
  obtain ⟨len, hlen⟩ : ∃ len, len = bitmapBytes mbt := ⟨_, rfl⟩
  have hbytes : 8 * len ≤ (startFrames mbt s).blocksMax := by
    rw [hlen, bitmapBytes, startFrames_blocksMax]
    omega
  have hhalf : setBits (startFrames mbt s).memoryMap (8 * len) = 4 * len := by
    rw [hlen]
    exact setBits_memsetMap _ _
  have hrest := setBits_le_add (startFrames mbt s).memoryMap hbytes
  simp only [StartGood, not_or]
  rw [← hlen] at hk
  rw [w32_of_lt (by omega)]
  omega

/-! ### Runs -/

/-- The allocator with the frames that are in use. -/
structure Pool where
  st : FrameState
  live : Finset ℕ

inductive PoolEvent where
  | deinit (base size : ℕ)
  | alloc
  | free (p : ℕ)
  | allocRun (n : ℕ)
  | freeRun (p n : ℕ)

/-- Calls of `mem_deinit_region`, of `alloc_block` and `alloc_blocks` that return, of
`free_block` for a frame in use, and of `free_blocks` for a run of them. -/
inductive PoolStep : Pool → PoolEvent → Pool → Prop
  | deinit {s : Pool} {base size : ℕ} (hsize : size < 4294967296) :
      PoolStep s (.deinit base size) ⟨memDeinitRegion base size s.st, s.live⟩
  | alloc {s : Pool} {p : ℕ} {st : FrameState} :
      allocBlock s.st = .returns p st → PoolStep s .alloc ⟨st, insert (p / 4096) s.live⟩
  | free {s : Pool} {p : ℕ} :
      p / 4096 ∈ s.live → PoolStep s (.free p) ⟨freeBlock s.st p, s.live.erase (p / 4096)⟩
  | allocRun {s : Pool} {n p : ℕ} {st : FrameState} (hn : n < 4294967296) :
      allocBlocks s.st n = .returns p st →
        PoolStep s (.allocRun n) ⟨st, s.live ∪ Finset.Ico (p / 4096) (p / 4096 + n)⟩
  | freeRun {s : Pool} {p n : ℕ} :
      (∀ i < n, p / 4096 + i ∈ s.live) →
        PoolStep s (.freeRun p n) ⟨freeBlocks s.st p n, s.live \ Finset.Ico (p / 4096) (p / 4096 + n)⟩

/-- The condition on a step, from the state before it: `mem_deinit_region` marks no clear frame
without a bit, and `alloc_blocks` finds a run of free frames. -/
def PoolGood (s : Pool) : PoolEvent → Prop
  | .deinit base size => ∀ f, base / 4096 ≤ f → f < base / 4096 + size / 4096 →
      strayFrame s.st f = false
  | .allocRun n => ∀ frame, mmapFirstFreeS s.st n = some frame →
      ∀ i < n, freeFrame s.st (w32 (frame + i)) = true
  | _ => True

/-- The frames in use have their bits set. -/
structure PoolInv (s : Pool) : Prop where
  max_lt : s.st.blocksMax < 1048576
  used_lt : s.st.blocksUsed < 4294967296
  live : ∀ f ∈ s.live, f < s.st.blocksMax ∧ s.st.mmapTest f = true

theorem mmapFirstFreeS_lt {s : FrameState} {n frame : ℕ} (h : mmapFirstFreeS s n = some frame) :
    0 < n ∧ frame < 32 * s.blocksMax := by
  unfold mmapFirstFreeS at h
  split at h
  · cases h
  split at h
  · have := ((findFreeBlock_eq_some_iff s frame).mp h).1
    omega
  · obtain ⟨i, hi, hfind⟩ := List.exists_of_findSome?_eq_some h
    have hi := List.mem_range.mp hi
    split at hfind
    · obtain ⟨j, hj, rfl⟩ := Option.map_eq_some_iff.mp hfind
      have hj := List.mem_range.mp (List.mem_of_find?_eq_some hj)
      omega
    · cases hfind

theorem allocBlocks_returns {s st : FrameState} {n p : ℕ} (h : allocBlocks s n = .returns p st) :
    ∃ frame, mmapFirstFreeS s n = some frame ∧ p = w32 (frame * 4096) ∧
      st = (setRun s frame n).addUsed n := by
  unfold allocBlocks at h
  split at h
  · cases h
  cases hf : mmapFirstFreeS s n with
  | none => simp [hf] at h
  | some f =>
      simp only [hf, Outcome.returns.injEq] at h
      exact ⟨f, rfl, h.1.symm, h.2.symm⟩

/-- Marking a region keeps the difference exactly if it marks no clear frame without a bit. -/
theorem excess_memDeinitRegion {s : FrameState} {base size : ℕ} (hsize : size < 4294967296) :
    excess (memDeinitRegion base size s) = excess s ↔
      ∀ f, base / 4096 ≤ f → f < base / 4096 + size / 4096 → strayFrame s f = false := by
  have hle := List.countP_le_length (l := List.range' (base / 4096) (size / 4096))
    (p := strayFrame s)
  have hnone := List.countP_eq_zero (l := List.range' (base / 4096) (size / 4096))
    (p := strayFrame s)
  rw [List.length_range'] at hle
  rw [memDeinitRegion, excess_deinitFrames, add_eq_left, ← Nat.cast_zero,
    cast_inj (by omega) (by omega), hnone]
  simp only [List.mem_range'_1, Bool.not_eq_true, and_imp]

/-- No step changes the number of frames, and the counter stays a 32-bit number. -/
theorem step_blocks {s s' : Pool} {ev : PoolEvent} (h : PoolInv s) (hs : PoolStep s ev s') :
    s'.st.blocksMax = s.st.blocksMax ∧ s'.st.blocksUsed < 4294967296 := by
  cases hs with
  | deinit hsize =>
      exact ⟨deinitFrames_blocksMax _ _ _, deinitFrames_blocksUsed _ _ h.used_lt⟩
  | alloc ha =>
      obtain ⟨f, -, -, -, rfl⟩ := allocBlock_returns ha
      exact ⟨by simp, w32_lt _⟩
  | free hp => exact ⟨by simp [freeBlock], sub32_lt _ _⟩
  | allocRun hn ha =>
      obtain ⟨f, -, -, rfl⟩ := allocBlocks_returns ha
      exact ⟨by simp, w32_lt _⟩
  | freeRun hp => exact ⟨by simp [freeBlocks], sub32_lt _ _⟩

/-- A step keeps the difference exactly if it meets the condition. -/
theorem step_excess_iff {s s' : Pool} {ev : PoolEvent} (h : PoolInv s) (hs : PoolStep s ev s') :
    excess s'.st = excess s.st ↔ PoolGood s ev := by
  have hmax := h.max_lt
  cases hs with
  | deinit hsize => exact excess_memDeinitRegion hsize
  | alloc ha =>
      obtain ⟨f, hf, -, -, rfl⟩ := allocBlock_returns ha
      have hlt := hf.1
      simp only [PoolGood, iff_true]
      rw [excess_addUsed, excess_mmapSet (by omega) hf.2.1]
      simp
  | free hp =>
      obtain ⟨hlt, hset⟩ := h.live _ hp
      simp only [PoolGood, iff_true]
      rw [freeBlock, excess_subUsed, excess_mmapUnset hlt hset]
      simp
  | allocRun hn ha =>
      obtain ⟨f, hf, -, rfl⟩ := allocBlocks_returns ha
      rw [excess_setRun_addUsed hn]
      simp only [PoolGood, hf, Option.some.injEq, forall_eq']
  | @freeRun p n hp =>
      have hn : n < 4294967296 := by
        by_contra hlt
        have := (h.live _ (hp (n - 1) (by omega))).1
        omega
      have hrun : ∀ i < n, w32 (p / 4096 + i) < s.st.blocksMax ∧
          s.st.mmapTest (w32 (p / 4096 + i)) = true := by
        intro i hi
        have hlive := h.live _ (hp i hi)
        rwa [w32_of_lt (by omega)]
      simp only [PoolGood, iff_true]
      rw [freeBlocks, excess_subUsed, excess_unsetRun_subUsed n hn hrun]
      ring

/-- A step keeps the counter right exactly if it meets the condition. -/
theorem step_counted_iff {s s' : Pool} {ev : PoolEvent} (h : PoolInv s) (hc : Counted s.st)
    (hs : PoolStep s ev s') : Counted s'.st ↔ PoolGood s ev := by
  obtain ⟨hmax, hused⟩ := step_blocks h hs
  rw [counted_iff h.max_lt h.used_lt] at hc
  rw [counted_iff (hmax ▸ h.max_lt) hused, ← step_excess_iff h hs, hc]

theorem step_poolInv {s s' : Pool} {ev : PoolEvent} (h : PoolInv s) (hg : PoolGood s ev)
    (hs : PoolStep s ev s') : PoolInv s' := by
  have hmax := h.max_lt
  obtain ⟨h1, h2⟩ := step_blocks h hs
  refine ⟨h1 ▸ hmax, h2, fun f hf => ?_⟩
  rw [h1]
  cases hs with
  | deinit hsize =>
      obtain ⟨hlt, hset⟩ := h.live f hf
      exact ⟨hlt, deinitFrames_mmapTest.mpr (.inl hset)⟩
  | alloc ha =>
      obtain ⟨g, hg, -, rfl, rfl⟩ := allocBlock_returns ha
      have hlt := hg.1
      rw [mmapTest_addUsed, mmapTest_mmapSet]
      rcases Finset.mem_insert.mp hf with rfl | hf
      · rw [w32_of_lt (by omega), Nat.mul_div_cancel _ (by decide)]
        exact ⟨by omega, .inl rfl⟩
      · exact ⟨(h.live f hf).1, .inr (h.live f hf).2⟩
  | free hp =>
      obtain ⟨hne, hf⟩ := Finset.mem_erase.mp hf
      rw [freeBlock, mmapTest_subUsed, mmapTest_mmapUnset]
      exact ⟨(h.live f hf).1, hne, (h.live f hf).2⟩
  | @allocRun n p st hn ha =>
      obtain ⟨g, hg', rfl, rfl⟩ := allocBlocks_returns ha
      obtain ⟨hpos, hlt⟩ := mmapFirstFreeS_lt hg'
      have hrun : ∀ i < n, w32 (g + i) < s.st.blocksMax := by
        intro i hi
        have := hg g hg' i hi
        simp only [freeFrame, Bool.and_eq_true, decide_eq_true_eq] at this
        exact this.1
      have hg0 := hrun 0 hpos
      rw [w32_of_lt (by omega)] at hg0
      -- a longer run would contain the frame behind the last one
      have hend : g + n ≤ s.st.blocksMax := by
        by_contra hlong
        have := hrun (s.st.blocksMax - g) (by omega)
        rw [w32_of_lt (by omega)] at this
        omega
      rw [mmapTest_addUsed, setRun_mmapTest]
      rcases Finset.mem_union.mp hf with hf | hf
      · exact ⟨(h.live f hf).1, .inr (h.live f hf).2⟩
      · rw [w32_of_lt (by omega), Nat.mul_div_cancel _ (by decide), Finset.mem_Ico] at hf
        refine ⟨by omega, .inl ⟨f - g, by omega, ?_⟩⟩
        rw [w32_of_lt (by omega)]
        omega
  | freeRun hp =>
      obtain ⟨hf, hout⟩ := Finset.mem_sdiff.mp hf
      rw [Finset.mem_Ico] at hout
      rw [freeBlocks, mmapTest_subUsed, unsetRun_mmapTest]
      refine ⟨(h.live f hf).1, fun i hi he => hout ?_, (h.live f hf).2⟩
      have := (h.live _ (hp i hi)).1
      rw [w32_of_lt (by omega)] at he
      omega

/-- The machine of `smallBoot` with `mem_upper` for 128 MiB. -/
def roundInfo : MultibootInfo := ⟨131072, 72, 4096⟩

theorem managed_round : ∀ e ∈ smallMap, e.Managed (startFrames roundInfo smallBoot).blocksMax := by
  have hmax : (startFrames roundInfo smallBoot).blocksMax = 32768 := by
    rw [startFrames_blocksMax]
    decide +kernel
  simp only [smallMap, List.forall_mem_cons, hmax, MmapEntry.Managed]
  decide

end Owmice.Frames
