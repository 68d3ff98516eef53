import Owmice.Frames
import Owmice.Heap
import Owmice.Logged

/-! # Setting up the frames (`pmem_init`)

`pmem_init` gives the bitmap one bit for every frame of `mem_upper` kilobytes, marks frames as
used, and then walks over the memory map of the boot loader: available regions become free,
all others used, and the first available region that does not start at 0 gets the kernel heap.

The frames of a region are numbered from address 0 on, but `mem_upper` counts from 1 MiB on, so
that the bitmap ends 256 frames too early.

* `pmemInit`: the function, and `pmemInitM` with the bits that it reads or writes;
* `bitmap_in_bounds_iff`: when all of them lie in the bitmap. -/

namespace Owmice.Frames

open FrameState Heap Logged

/-! ### The memory map -/

/-- What `pmem_init` reads of `multiboot_info_t`. -/
structure MultibootInfo where
  memUpper : ℕ
  mmapLength : ℕ
  mmapAddr : ℕ

/-- What `pmem_init` uses of `_multiboot_memory_map_t`. -/
structure MmapEntry where
  baseAddrLow : ℕ
  lengthLow : ℕ
  type : ℕ

/-- The entry at address `a`. -/
def readEntry (m : Mem) (a : ℕ) : MmapEntry :=
  ⟨m.read32 (a + 4), m.read32 (a + 12), m.read32 (a + 20)⟩

/-- The walk of `mb_mmap` from `a` to `stop`; `none` when it has not ended.  The map is an object
of its own: nothing that `pmem_init` writes changes it. -/
def readMmap (m : Mem) (stop : ℕ) : ℕ → ℕ → Option (List MmapEntry)
  | 0, _ => none
  | fuel + 1, a =>
      if a < stop then
        (readMmap m stop fuel (w32 (a + m.read32 a + 4))).map (readEntry m a :: ·)
      else some []

/-! ### The function -/

/-- The variables of the boot; `kernelMem` is the pointer, and the fields of what it points to
follow. -/
structure Boot where
  frames : FrameState
  mmapLen : ℕ
  memUnused : ℕ
  kernelSize : ℕ
  kernelMem : ℕ
  kernelStart : ℕ
  kernelEnd : ℕ
  heap : HeapState

/-- `alloc`; `a & 0xFFFFF000` is written `a / 4096 * 4096`. -/
def alloc (s : Boot) (sz : ℕ) (palign : Bool) : ℕ × Boot :=
  let tmp :=
    if palign ∧ s.memUnused / 4096 * 4096 ≠ 0 then w32 (s.memUnused / 4096 * 4096 + 4096)
    else s.memUnused
  (tmp, { s with memUnused := w32 (tmp + sz) })

/-- `memset (map, 0xf, len)`, in words. -/
def memsetMap (map : Bitmap) (len : ℕ) : Bitmap := fun i =>
  let mask := BitVec.ofNat 32 (2 ^ (8 * min 4 (len - 4 * i)) - 1)
  (map i &&& ~~~mask) ||| (0x0f0f0f0f#32 &&& mask)

/-- `pmem_init` before the loop.  There is no heap yet, so `malloc` is `alloc`. -/
def pmemStart (mbt : MultibootInfo) (s : Boot) : Boot :=
  let blocksMax := w32 (mbt.memUpper * 1024) / 4096
  let mmapLen := blocksMax / 8
  let (_, s) := alloc s mmapLen false
  { s with
    mmapLen := mmapLen
    frames := ⟨memsetMap s.frames.memoryMap mmapLen, blocksMax, blocksMax⟩ }

/-- The kernel heap in an available region, unless there is one already. -/
def addKernelMem (e : MmapEntry) (s : Boot) : Boot :=
  let sizePa := w32 (s.kernelSize / 4096 * 4096 + 4096)
  if s.kernelMem = 0 then
    let (p, s) := alloc s 8 false
    let start := w32 (e.baseAddrLow + sizePa + 4096 * 30)
    let stop := w32 (start + sub32 (sub32 e.lengthLow sizePa) (4096 * 30))
    { s with
      kernelMem := p
      kernelStart := start
      kernelEnd := stop
      heap := kHeapLCABAddBlock { s.heap with heap := kHeapLCABInit s.heap.heap } start
        (sub32 stop start) }
  else s

/-- The entry is an available region that does not start at 0. -/
def MmapEntry.Usable (e : MmapEntry) : Prop := e.type = 1 ∧ 0 < e.baseAddrLow

instance (e : MmapEntry) : Decidable e.Usable := by unfold MmapEntry.Usable; infer_instance

/-- One round of the loop of `pmem_init`. -/
def pmemEntry (s : Boot) (e : MmapEntry) : Boot :=
  if e.Usable then
    addKernelMem e { s with frames := memInitRegion e.baseAddrLow e.lengthLow s.frames }
  else { s with frames := memDeinitRegion e.baseAddrLow e.lengthLow s.frames }

/-- `pmem_init`. -/
def pmemInit (fuel : ℕ) (mbt : MultibootInfo) (s : Boot) : Option Boot :=
  (readMmap s.heap.mem (w32 (mbt.mmapAddr + mbt.mmapLength)) fuel mbt.mmapAddr).map fun entries =>
    entries.foldl pmemEntry (pmemStart mbt s)

/-! ### The accesses to the bitmap -/

/-- `mem_init_region`, the loop: `mmap_test`, and `mmap_unset` for a used frame. -/
def initFramesM : ℕ → ℕ → FrameState → Logged ℕ FrameState
  | 0, _, s => pure s
  | blocks + 1, frame, s => do
      access frame
      if s.mmapTest frame then do
        access frame
        initFramesM blocks (frame + 1) ((s.mmapUnset frame).subUsed 1)
      else initFramesM blocks (frame + 1) s

/-- `mem_init_region`. -/
def memInitRegionM (base size : ℕ) (s : FrameState) : Logged ℕ FrameState := do
  let s ← initFramesM (size / 4096) (base / 4096) s
  access 0
  pure (s.mmapSet 0)

/-- `mem_deinit_region`, the loop. -/
def deinitFramesM : ℕ → ℕ → FrameState → Logged ℕ FrameState
  | 0, _, s => pure s
  | blocks + 1, frame, s => do
      access frame
      if s.mmapTest frame then deinitFramesM blocks (frame + 1) s
      else do
        access frame
        deinitFramesM blocks (frame + 1) ((s.mmapSet frame).addUsed 1)

/-- `mem_deinit_region`. -/
def memDeinitRegionM (base size : ℕ) (s : FrameState) : Logged ℕ FrameState :=
  deinitFramesM (size / 4096) (base / 4096) s

/-- One round of the loop of `pmem_init`. -/
def pmemEntryM (s : Boot) (e : MmapEntry) : Logged ℕ Boot :=
  if e.Usable then do
    let frames ← memInitRegionM e.baseAddrLow e.lengthLow s.frames
    pure (addKernelMem e { s with frames := frames })
  else do
    let frames ← memDeinitRegionM e.baseAddrLow e.lengthLow s.frames
    pure { s with frames := frames }

/-- `pmem_init`. -/
def pmemInitM (fuel : ℕ) (mbt : MultibootInfo) (s : Boot) : Option (Logged ℕ Boot) :=
  (readMmap s.heap.mem (w32 (mbt.mmapAddr + mbt.mmapLength)) fuel mbt.mmapAddr).map fun entries =>
    entries.foldlM pmemEntryM (pmemStart mbt s)

theorem initFramesM_val (blocks frame : ℕ) (s : FrameState) :
    (initFramesM blocks frame s).val = initFrames blocks frame s := by
  induction blocks generalizing frame s with
  | zero => rfl
  | succ blocks ih =>
      rw [initFramesM, initFrames, bind_val]
      split
      · rw [bind_val, ih]
      · exact ih _ _

theorem deinitFramesM_val (blocks frame : ℕ) (s : FrameState) :
    (deinitFramesM blocks frame s).val = deinitFrames blocks frame s := by
  induction blocks generalizing frame s with
  | zero => rfl
  | succ blocks ih =>
      rw [deinitFramesM, deinitFrames, bind_val]
      split
      · exact ih _ _
      · rw [bind_val, ih]

theorem pmemEntryM_val (s : Boot) (e : MmapEntry) : (pmemEntryM s e).val = pmemEntry s e := by
  unfold pmemEntryM pmemEntry
  split
  · rw [bind_val, pure_val, memInitRegionM, bind_val, bind_val, pure_val, initFramesM_val,
      memInitRegion]
  · rw [bind_val, pure_val, memDeinitRegionM, deinitFramesM_val, memDeinitRegion]

/-- The instrumented program computes the function. -/
theorem pmemInitM_val (fuel : ℕ) (mbt : MultibootInfo) (s : Boot) :
    (pmemInitM fuel mbt s).map val = pmemInit fuel mbt s := by
  rw [pmemInitM, pmemInit, Option.map_map]
  congr 1
  funext entries
  exact foldlM_val _ _ pmemEntryM_val _ _

/-! ### The bits that are touched -/

theorem mem_log_initFramesM {b blocks frame : ℕ} {s : FrameState} :
    b ∈ (initFramesM blocks frame s).log ↔ frame ≤ b ∧ b < frame + blocks := by
  induction blocks generalizing frame s with
  | zero =>
      simp only [initFramesM, pure_log, List.not_mem_nil, false_iff]
      omega
  | succ blocks ih =>
      rw [initFramesM, bind_log, access_log, List.singleton_append, List.mem_cons]
      split
      · rw [bind_log, access_log, List.singleton_append, List.mem_cons, ih]
        omega
      · rw [ih]
        omega

theorem mem_log_deinitFramesM {b blocks frame : ℕ} {s : FrameState} :
    b ∈ (deinitFramesM blocks frame s).log ↔ frame ≤ b ∧ b < frame + blocks := by
  induction blocks generalizing frame s with
  | zero =>
      simp only [deinitFramesM, pure_log, List.not_mem_nil, false_iff]
      omega
  | succ blocks ih =>
      rw [deinitFramesM, bind_log, access_log, List.singleton_append, List.mem_cons]
      split
      · rw [ih]
        omega
      · rw [bind_log, access_log, List.singleton_append, List.mem_cons, ih]
        omega

/-- The bits that an entry of the map makes `pmem_init` touch: those of its whole frames, and
bit 0 if the entry is usable. -/
def MmapEntry.Touches (e : MmapEntry) (b : ℕ) : Prop :=
  (e.baseAddrLow / 4096 ≤ b ∧ b < e.baseAddrLow / 4096 + e.lengthLow / 4096) ∨ e.Usable ∧ b = 0

theorem mem_log_pmemEntryM (s : Boot) (e : MmapEntry) (b : ℕ) :
    b ∈ (pmemEntryM s e).log ↔ e.Touches b := by
  unfold pmemEntryM MmapEntry.Touches
  split
  case isTrue hu =>
    rw [bind_log, pure_log, List.append_nil, memInitRegionM, bind_log, bind_log, access_log,
      pure_log, List.append_nil, List.mem_append, mem_log_initFramesM, List.mem_singleton]
    simp only [hu, true_and]
  case isFalse hu =>
    rw [bind_log, pure_log, List.append_nil, memDeinitRegionM, mem_log_deinitFramesM]
    simp only [hu, false_and, or_false]

theorem pmemEntry_mmapLen (s : Boot) (e : MmapEntry) : (pmemEntry s e).mmapLen = s.mmapLen := by
  unfold pmemEntry addKernelMem
  split
  · simp only
    split
    · rfl
    · rfl
  · rfl

theorem foldl_pmemEntry_mmapLen (entries : List MmapEntry) (s : Boot) :
    (entries.foldl pmemEntry s).mmapLen = s.mmapLen := by
  induction entries generalizing s with
  | nil => rfl
  | cons e entries ih => rw [List.foldl_cons, ih, pmemEntry_mmapLen]

/-- The length of the bitmap in bytes. -/
def bitmapBytes (mbt : MultibootInfo) : ℕ := w32 (mbt.memUpper * 1024) / 4096 / 8

/-- An entry of the map fits the bitmap: a region of one frame or more ends, in whole frames,
within the bitmap, and for a usable region there is a bit 0. -/
def MmapEntry.Fits (bytes : ℕ) (e : MmapEntry) : Prop :=
  (4096 ≤ e.lengthLow → e.baseAddrLow / 4096 + e.lengthLow / 4096 ≤ 8 * bytes) ∧
    (e.Usable → 0 < bytes)

theorem MmapEntry.fits_iff (e : MmapEntry) (bytes : ℕ) :
    (∀ b, e.Touches b → b < 8 * bytes) ↔ e.Fits bytes := by
  unfold MmapEntry.Touches MmapEntry.Fits
  constructor
  · intro h
    refine ⟨fun hlen => ?_, fun hu => ?_⟩
    · have := h (e.baseAddrLow / 4096 + e.lengthLow / 4096 - 1) (.inl (by omega))
      omega
    · have := h 0 (.inr ⟨hu, rfl⟩)
      omega
  · rintro ⟨hlen, hu⟩ b (hb | ⟨hb, rfl⟩)
    · have := hlen (by omega)
      omega
    · have := hu hb
      omega

/-- What `pmem_init` touches is what the entries of the map make it touch. -/
theorem pmemInitM_spec {fuel : ℕ} {mbt : MultibootInfo} {s : Boot} {entries : List MmapEntry}
    (hmap : readMmap s.heap.mem (w32 (mbt.mmapAddr + mbt.mmapLength)) fuel mbt.mmapAddr =
      some entries) :
    ∃ r, pmemInitM fuel mbt s = some r ∧ r.val.mmapLen = bitmapBytes mbt ∧
      ∀ b, b ∈ r.log ↔ ∃ e ∈ entries, e.Touches b := by
  refine ⟨entries.foldlM pmemEntryM (pmemStart mbt s), ?_, ?_, ?_⟩
  · rw [pmemInitM, hmap, Option.map_some]
  · rw [foldlM_val _ _ pmemEntryM_val, foldl_pmemEntry_mmapLen]
    rfl
  · intro b
    exact mem_log_foldlM mem_log_pmemEntryM

/-- `pmem_init` touches only bits of the buffer that it has allocated exactly if every entry of
the map fits the bitmap. -/
theorem bitmap_in_bounds_iff {fuel : ℕ} {mbt : MultibootInfo} {s : Boot}
    {entries : List MmapEntry}
    (hmap : readMmap s.heap.mem (w32 (mbt.mmapAddr + mbt.mmapLength)) fuel mbt.mmapAddr =
      some entries) :
    ∃ r, pmemInitM fuel mbt s = some r ∧ pmemInit fuel mbt s = some r.val ∧
      ((∀ b ∈ r.log, b < 8 * r.val.mmapLen) ↔ ∀ e ∈ entries, e.Fits (bitmapBytes mbt)) := by
  obtain ⟨r, hr, hlen, hlog⟩ := pmemInitM_spec hmap
  refine ⟨r, hr, ?_, ?_⟩
  · rw [← pmemInitM_val, hr, Option.map_some]
  · simp only [hlen, hlog, ← MmapEntry.fits_iff]
    exact ⟨fun h e he b hb => h b ⟨e, he, hb⟩, fun h b ⟨e, he, hb⟩ => h e he b hb⟩

/-- The available memory above 1 MiB as one region of `mem_upper` kilobytes never fits: its
frames start at 256, and the bitmap has one bit for each of them, rounded down. -/
theorem not_fits_upper {mbt : MultibootInfo} (hupper : mbt.memUpper * 1024 < 4294967296) :
    ¬ MmapEntry.Fits (bitmapBytes mbt) ⟨1048576, mbt.memUpper * 1024, 1⟩ := by
  unfold MmapEntry.Fits bitmapBytes MmapEntry.Usable
  rw [w32_of_lt hupper]
  simp only [true_and]
  omega

/-! ### A machine with 128 MiB -/

/-- Above 1 MiB, the available memory is `mem_upper` kilobytes. -/
def UpperMemory (mbt : MultibootInfo) (entries : List MmapEntry) : Prop :=
  ∀ a, 1048576 ≤ a →
    ((∃ e ∈ entries, e.type = 1 ∧ e.baseAddrLow ≤ a ∧ a < e.baseAddrLow + e.lengthLow) ↔
      a < 1048576 + mbt.memUpper * 1024)

/-- The memory map of a machine with 128 MiB: the first 636 KiB and the memory above 1 MiB are
available, what is between them is reserved. -/
def smallMap : List MmapEntry :=
  [⟨0, 651264, 1⟩, ⟨651264, 397312, 2⟩, ⟨1048576, 133169152, 1⟩]

/-- The words of the map at address 4096, with entries of 24 bytes. -/
def smallMem : Mem :=
  [(4096, 20), (4108, 651264), (4116, 1), (4120, 20), (4124, 651264), (4132, 397312), (4140, 2),
    (4144, 20), (4148, 1048576), (4156, 133169152), (4164, 1)].foldl
    (fun m p => Mem.write32 m p.1 p.2) (fun _ => 0)

/-- The machine when `pmem_init` is called. -/
def smallBoot : Boot where
  frames := ⟨fun _ => 0, 0, 0⟩
  mmapLen := 0
  memUnused := 4194304
  kernelSize := 65536
  kernelMem := 0
  kernelStart := 0
  kernelEnd := 0
  heap := ⟨smallMem, ⟨0, 0, 0, 0⟩⟩

def smallInfo : MultibootInfo := ⟨130048, 72, 4096⟩

theorem readMmap_small : readMmap smallBoot.heap.mem
    (w32 (smallInfo.mmapAddr + smallInfo.mmapLength)) 4 smallInfo.mmapAddr = some smallMap := by
  have hread : ∀ a ∈ [4096, 4120, 4144], smallBoot.heap.mem.read32 a = 20 := by decide +kernel
  have h0 : readEntry smallBoot.heap.mem 4096 = ⟨0, 651264, 1⟩ := by
    simp only [readEntry, MmapEntry.mk.injEq]
    decide +kernel
  have h1 : readEntry smallBoot.heap.mem 4120 = ⟨651264, 397312, 2⟩ := by
    simp only [readEntry, MmapEntry.mk.injEq]
    decide +kernel
  have h2 : readEntry smallBoot.heap.mem 4144 = ⟨1048576, 133169152, 1⟩ := by
    simp only [readEntry, MmapEntry.mk.injEq]
    decide +kernel
  have hstop : w32 (smallInfo.mmapAddr + smallInfo.mmapLength) = 4168 := by decide +kernel
  rw [hstop]
  simp (disch := decide) [readMmap, smallInfo, hread 4096 (by decide), hread 4120 (by decide),
    hread 4144 (by decide), w32_of_lt, h0, h1, h2, smallMap]

/-- The theorem for this machine. -/
theorem bitmap_in_bounds_small : ∃ r, pmemInitM 4 smallInfo smallBoot = some r ∧
    pmemInit 4 smallInfo smallBoot = some r.val ∧
    ((∀ b ∈ r.log, b < 8 * r.val.mmapLen) ↔ ∀ e ∈ smallMap, e.Fits (bitmapBytes smallInfo)) :=
  bitmap_in_bounds_iff readMmap_small

/-- There, the last frames of the available memory have no bit. -/
theorem bitmap_out_of_bounds :
    ¬ ∀ (fuel : ℕ) (mbt : MultibootInfo) (s : Boot) (entries : List MmapEntry) (r : Logged ℕ Boot),
      readMmap s.heap.mem (w32 (mbt.mmapAddr + mbt.mmapLength)) fuel mbt.mmapAddr = some entries →
      UpperMemory mbt entries → pmemInitM fuel mbt s = some r →
      ∀ b ∈ r.log, b < 8 * r.val.mmapLen := by
  intro h
  have hupper : UpperMemory smallInfo smallMap := by
    intro a ha
    simp only [smallMap, smallInfo, List.exists_mem_cons_iff, List.not_mem_nil, false_and,
      exists_false, true_and, or_false]
    omega
  obtain ⟨r, hr, hlen, hlog⟩ := pmemInitM_spec readMmap_small
  have hno : ¬ MmapEntry.Fits (bitmapBytes smallInfo) ⟨1048576, smallInfo.memUpper * 1024, 1⟩ :=
    not_fits_upper (by decide)
  apply hno
  rw [← MmapEntry.fits_iff]
  intro b hb
  rw [← hlen]
  exact h 4 smallInfo smallBoot smallMap r readMmap_small hupper hr b
    ((hlog b).mpr ⟨_, by simp [smallMap, smallInfo], hb⟩)

end Owmice.Frames
