import Owmice.FrameCounts

/-! # Memory layout at boot

Before there is a heap, `malloc` hands out the bytes behind the ramdisk one after the other.
`pmem_init` puts the heap into the first available region, behind the size of the kernel and 30
pages.  Neither looks at the other.

* `Region.Apart`: regions without a common byte;
* `has_bumpRegions_iff`: what the boot-phase `malloc` hands out is one region behind the ramdisk;
* `heap_apart_iff`: when the heap meets none of them, nor the ramdisk. -/

namespace Owmice.Frames

open Heap

/-! ### Regions of memory -/

/-- The `size` bytes from `addr` on, wrapped around the end of memory. -/
structure Region where
  addr : ℕ
  size : ℕ

/-- Byte `y` belongs to the region. -/
def Region.Has (r : Region) (y : ℕ) : Prop := ∃ k < r.size, y = w32 (r.addr + k)

/-- The regions have no common byte. -/
def Region.Apart (r t : Region) : Prop := ∀ y, r.Has y → ¬ t.Has y

/-- A region that does not wrap around. -/
theorem Region.has_iff {r : Region} (h : r.addr + r.size ≤ 4294967296) (y : ℕ) :
    r.Has y ↔ r.addr ≤ y ∧ y < r.addr + r.size := by
  constructor
  · rintro ⟨k, hk, rfl⟩
    rw [w32_of_lt (by omega)]
    omega
  · rintro ⟨h1, h2⟩
    refine ⟨y - r.addr, by omega, ?_⟩
    rw [w32_of_lt (by omega)]
    omega

/-- Regions handed out one behind the other from `p` on. -/
def bumpRegions : ℕ → List ℕ → List Region
  | _, [] => []
  | p, n :: ns => ⟨p, n⟩ :: bumpRegions (w32 (p + n)) ns

/-- Together they are one region. -/
theorem has_bumpRegions_iff {y p : ℕ} {ns : List ℕ} :
    (∃ g ∈ bumpRegions p ns, g.Has y) ↔ Region.Has ⟨p, ns.sum⟩ y := by
  induction ns generalizing p with
  | nil => simp [bumpRegions, Region.Has]
  | cons n ns ih =>
      rw [bumpRegions, List.exists_mem_cons_iff, ih, List.sum_cons]
      constructor
      · rintro (⟨k, hk, rfl⟩ | ⟨k, hk, rfl⟩)
        · exact ⟨k, Nat.lt_add_right _ hk, rfl⟩
        · refine ⟨n + k, Nat.add_lt_add_left hk n, ?_⟩
          simp only [w32]
          omega
      · rintro ⟨k, hk, rfl⟩
        by_cases hkn : k < n
        · exact .inl ⟨k, hkn, rfl⟩
        · have hk' : k < n + ns.sum := hk
          have hlt : k - n < ns.sum := by omega
          refine .inr ⟨k - n, hlt, ?_⟩
          simp only [w32]
          omega

theorem apart_bumpRegions_iff {r : Region} {p : ℕ} {ns : List ℕ} :
    (∀ g ∈ bumpRegions p ns, r.Apart g) ↔ r.Apart ⟨p, ns.sum⟩ := by
  simp only [Region.Apart, ← has_bumpRegions_iff, not_exists, not_and]
  exact ⟨fun h y hy g hg => h g hg y hy, fun h g hg y hy => h y hy g hg⟩

/-! ### The boot up to `pmem_init` -/

/-- `sizeof(fs_node_t)`. -/
def sizeofFsNode : ℕ := 184

/-- `sizeof(mem_t)`. -/
def sizeofMem : ℕ := 8

/-- `malloc` for several sizes in turn, while there is no heap. -/
def mallocs : List ℕ → Boot → List Region × Boot
  | [], s => ([], s)
  | n :: ns, s =>
      let (p, s) := alloc s n false
      let (regions, s) := mallocs ns s
      (⟨p, n⟩ :: regions, s)

theorem mallocs_eq (ns : List ℕ) (s : Boot) :
    mallocs ns s = (bumpRegions s.memUnused ns,
      { s with memUnused := (ns.foldl (fun p n => w32 (p + n)) s.memUnused) }) := by
  induction ns generalizing s with
  | nil => rfl
  | cons n ns ih =>
      rw [mallocs, bumpRegions, List.foldl_cons]
      simp only [alloc, Bool.false_eq_true, false_and, if_false]
      rw [ih]

/-- `kmain` before `pmem_init`: the memory behind the ramdisk is unused, `kernel_mem` is a null
pointer, and `initrd_init` asks for `initrd_root`, `initrd_mtp` and `root_nodes`. -/
def kmainStart (initrdLocation initrdEnd : ℕ) (s : Boot) : List Region × Boot :=
  let s := { s with memUnused := w32 (initrdEnd + 1), kernelMem := 0 }
  let nfiles := s.heap.mem.read32 initrdLocation
  mallocs [sizeofFsNode, sizeofFsNode, w32 (sizeofFsNode * nfiles)] s

/-- The ramdisk and what `malloc` has handed out when `pmem_init` has left the state `r`. -/
def bootRegions (mbt : MultibootInfo) (initrdLocation initrdEnd : ℕ) (s r : Boot) :
    List Region :=
  let start := kmainStart initrdLocation initrdEnd s
  let memoryMap := (alloc start.2 (bitmapBytes mbt) false).1
  ⟨initrdLocation, initrdEnd - initrdLocation⟩ ::
    (start.1 ++ [⟨memoryMap, bitmapBytes mbt⟩, ⟨r.kernelMem, sizeofMem⟩])

/-- The block that is given to `k_heapLCABAddBlock`. -/
def heapRegion (r : Boot) : Region := ⟨r.kernelStart, sub32 r.kernelEnd r.kernelStart⟩

/-! ### The map -/

/-- An entry that is not usable changes the frames only. -/
theorem pmemEntry_of_not_usable {s : Boot} {e : MmapEntry} (h : ¬ e.Usable) :
    pmemEntry s e = { s with frames := framesEntry s.frames e } := by
  rw [pmemEntry, if_neg h, framesEntry, if_neg h]

theorem foldl_pmemEntry_of_not_usable (entries : List MmapEntry) (s : Boot)
    (h : ∀ e ∈ entries, ¬ e.Usable) :
    entries.foldl pmemEntry s = { s with frames := entries.foldl framesEntry s.frames } := by
  induction entries generalizing s with
  | nil => rfl
  | cons e entries ih =>
      obtain ⟨he, hes⟩ := List.forall_mem_cons.mp h
      rw [List.foldl_cons, pmemEntry_of_not_usable he, ih _ hes, List.foldl_cons]

/-- As soon as there is a heap, no entry changes anything but the frames. -/
theorem foldl_pmemEntry_of_heap (entries : List MmapEntry) (s : Boot) (h : s.kernelMem ≠ 0) :
    entries.foldl pmemEntry s = { s with frames := entries.foldl framesEntry s.frames } := by
  induction entries generalizing s with
  | nil => rfl
  | cons e entries ih =>
      have he : pmemEntry s e = { s with frames := framesEntry s.frames e } := by
        rw [pmemEntry, framesEntry]
        split
        · rw [addKernelMem]
          simp only [h, if_false]
        · rfl
      rw [List.foldl_cons, he, List.foldl_cons]
      exact ih { s with frames := framesEntry s.frames e } h

/-- What the heap leaves of the first available region: the size of the kernel, rounded up, and
30 pages. -/
def heapOffset (kernelSize : ℕ) : ℕ := w32 (kernelSize / 4096 * 4096 + 4096) + 4096 * 30

/-- The first usable entry gets the heap. -/
theorem pmemEntry_of_usable {s : Boot} {e : MmapEntry} (h : e.Usable) (hnull : s.kernelMem = 0) :
    (pmemEntry s e).kernelMem = s.memUnused ∧
      (pmemEntry s e).kernelStart = w32 (e.baseAddrLow + heapOffset s.kernelSize) ∧
      (pmemEntry s e).kernelEnd = w32 (w32 (e.baseAddrLow + heapOffset s.kernelSize) +
        sub32 e.lengthLow (heapOffset s.kernelSize)) := by
  rw [pmemEntry, if_pos h, addKernelMem]
  simp only [hnull, if_true, alloc, Bool.false_eq_true, false_and, if_false, heapOffset,
    sub32_sub32, Nat.add_assoc, true_and]

/-! ### The heap and the regions before it -/

/-- The layout is good: the boot data end where the heap starts, or before.  In the two other cases
the heap has no byte, or one, which lies between the ramdisk and the boot data. -/
def LayoutGood (base length offset initrdEnd total : ℕ) : Prop :=
  length = offset ∨ (offset < length ∧ initrdEnd + 1 + total ≤ base + offset) ∨
    (length = offset + 1 ∧ initrdEnd = base + offset ∧ total < 4294967296)

section layout

variable {base length offset loc initrdEnd total : ℕ}

theorem sub32_add_w32 (a : ℕ) {d : ℕ} (hd : d < 4294967296) :
    sub32 (w32 (w32 a + d)) (w32 a) = d := by
  simp only [sub32, w32]
  omega

/-- A heap larger than its region covers all of the region. -/
theorem heap_meets_of_lt (hoff : offset < 4294967296) (hlt : length < offset)
    (hlo : base ≤ loc) (hloc : loc < base + length) (hfit : base + length ≤ 4294967296) :
    Region.Has ⟨w32 (base + offset), sub32 length offset⟩ loc := by
  have hsize : sub32 length offset = 4294967296 + length - offset := by
    simp only [sub32, w32]
    omega
  refine ⟨loc + 4294967296 - (base + offset), ?_, ?_⟩
  · change _ < sub32 length offset
    omega
  · simp only [w32]
    omega

/-- The boot data reach a byte that lies behind the ramdisk, unless they end before. -/
theorem has_bootData {y : ℕ} (hy : y < 4294967296) (hlo : initrdEnd + 1 ≤ y)
    (htotal : y < initrdEnd + 1 + total) : Region.Has ⟨w32 (initrdEnd + 1), total⟩ y := by
  have hlt : y - (initrdEnd + 1) < total := by omega
  refine ⟨y - (initrdEnd + 1), hlt, ?_⟩
  simp only [w32]
  omega

/-- A heap in its region meets neither the ramdisk nor the boot data exactly if the layout is
good. -/
theorem apart_of_offset_lt (hlt : offset < length) (hfit : base + length ≤ 4294967296)
    (hloc : loc < initrdEnd) (hend : initrdEnd ≤ base + length) (htotal : 0 < total) :
    (Region.Apart ⟨base + offset, length - offset⟩ ⟨loc, initrdEnd - loc⟩ ∧
      Region.Apart ⟨base + offset, length - offset⟩ ⟨w32 (initrdEnd + 1), total⟩) ↔
        LayoutGood base length offset initrdEnd total := by
  have hheap : ∀ y, Region.Has ⟨base + offset, length - offset⟩ y ↔
      base + offset ≤ y ∧ y < base + length := fun y => by
    rw [Region.has_iff (by simp only; omega)]
    simp only
    omega
  have hdisk : ∀ y, Region.Has ⟨loc, initrdEnd - loc⟩ y ↔ loc ≤ y ∧ y < initrdEnd := fun y => by
    rw [Region.has_iff (by simp only; omega)]
    simp only
    omega
  simp only [Region.Apart, hheap, hdisk, LayoutGood]
  constructor
  · rintro ⟨h1, h2⟩
    have hbelow : initrdEnd ≤ base + offset := by
      by_contra hover
      exact h1 (max loc (base + offset)) (by omega) (by omega)
    by_cases hdata : initrdEnd + 1 + total ≤ base + offset
    · exact .inr (.inl ⟨hlt, hdata⟩)
    by_cases hgap : initrdEnd + 1 ≤ base + offset
    · exact absurd (has_bootData (by omega) hgap (by omega)) (h2 (base + offset) (by omega))
    -- the ramdisk ends where the heap starts
    have hstop : initrdEnd = base + offset := by omega
    by_cases hone : length = offset + 1
    · refine .inr (.inr ⟨hone, hstop, ?_⟩)
      by_contra hwrap
      refine h2 (base + offset) (by omega) ⟨4294967295, ?_, ?_⟩
      · change _ < total
        omega
      · simp only [w32]
        omega
    · exact absurd (has_bootData (y := initrdEnd + 1) (by omega) le_rfl (by omega))
        (h2 _ (by omega))
  · rintro (h | ⟨-, h⟩ | ⟨hone, hstop, htot⟩)
    · omega
    · refine ⟨fun y hy hy' => by omega, ?_⟩
      rintro y hy ⟨k, hk, rfl⟩
      have hk' : k < total := hk
      simp only [w32] at hy
      omega
    · refine ⟨fun y hy hy' => by omega, ?_⟩
      rintro y hy ⟨k, hk, rfl⟩
      have hk' : k < total := hk
      simp only [w32] at hy
      omega

theorem heap_apart_layout (hfit : base + length ≤ 4294967296) (hlen : length < 4294967296)
    (hoff : offset < 4294967296) (hlo : base ≤ loc) (hloc : loc < initrdEnd)
    (hend : initrdEnd ≤ base + length) (htotal : 0 < total) :
    (Region.Apart ⟨w32 (base + offset), sub32 length offset⟩ ⟨loc, initrdEnd - loc⟩ ∧
      Region.Apart ⟨w32 (base + offset), sub32 length offset⟩ ⟨w32 (initrdEnd + 1), total⟩) ↔
        LayoutGood base length offset initrdEnd total := by
  rcases lt_trichotomy offset length with hlt | heq | hgt
  · rw [w32_of_lt (by omega), sub32_of_le hlt.le hlen]
    exact apart_of_offset_lt hlt hfit hloc hend htotal
  · rw [heq, sub32_of_le le_rfl hlen, Nat.sub_self]
    have hempty : ∀ t, Region.Apart ⟨w32 (base + length), 0⟩ t := by
      rintro t y ⟨k, hk, -⟩
      exact absurd hk (Nat.not_lt_zero _)
    exact iff_of_true ⟨hempty _, hempty _⟩ (.inl rfl)
  · have hmeets := heap_meets_of_lt hoff hgt hlo (by omega) hfit
    refine iff_of_false (fun h => h.1 loc hmeets ⟨0, ?_, ?_⟩) ?_
    · change 0 < initrdEnd - loc
      omega
    · exact (w32_of_lt (by omega)).symm
    · rw [LayoutGood]
      omega

end layout

/-- What `malloc` hands out while there is no heap: two nodes, those of the files, the bitmap and
`kernel_mem`. -/
def bootSizes (mbt : MultibootInfo) (nfiles : ℕ) : List ℕ :=
  [sizeofFsNode, sizeofFsNode, w32 (sizeofFsNode * nfiles), bitmapBytes mbt, sizeofMem]

theorem bumpRegions_append (ns ms : List ℕ) (p : ℕ) : bumpRegions p (ns ++ ms) =
    bumpRegions p ns ++ bumpRegions (ns.foldl (fun p n => w32 (p + n)) p) ms := by
  induction ns generalizing p with
  | nil => rfl
  | cons n ns ih => simp only [List.cons_append, bumpRegions, List.foldl_cons, ih]

section boot

variable {fuel loc initrdEnd : ℕ} {mbt : MultibootInfo} {s : Boot}

theorem kmainStart_eq (loc initrdEnd : ℕ) (s : Boot) : kmainStart loc initrdEnd s =
    (bumpRegions (w32 (initrdEnd + 1))
      [sizeofFsNode, sizeofFsNode, w32 (sizeofFsNode * s.heap.mem.read32 loc)],
      { s with
        memUnused := [sizeofFsNode, sizeofFsNode, w32 (sizeofFsNode * s.heap.mem.read32 loc)].foldl
          (fun p n => w32 (p + n)) (w32 (initrdEnd + 1))
        kernelMem := 0 }) := by
  rw [kmainStart]
  simp only [mallocs_eq]

/-- The pointer to `kernel_mem`. -/
def kernelMemAt (mbt : MultibootInfo) (loc initrdEnd : ℕ) (s : Boot) : ℕ :=
  (pmemStart mbt (kmainStart loc initrdEnd s).2).memUnused

theorem kernelMemAt_eq : kernelMemAt mbt loc initrdEnd s =
    w32 ((kmainStart loc initrdEnd s).2.memUnused + bitmapBytes mbt) := by
  rw [kernelMemAt, pmemStart]
  simp only [alloc, Bool.false_eq_true, false_and, if_false, bitmapBytes]

/-- What `malloc` has handed out. -/
theorem bootRegions_eq {r : Boot} (hr : r.kernelMem = kernelMemAt mbt loc initrdEnd s) :
    bootRegions mbt loc initrdEnd s r = ⟨loc, initrdEnd - loc⟩ ::
      bumpRegions (w32 (initrdEnd + 1)) (bootSizes mbt (s.heap.mem.read32 loc)) := by
  have hsizes : bootSizes mbt (s.heap.mem.read32 loc) =
      [sizeofFsNode, sizeofFsNode, w32 (sizeofFsNode * s.heap.mem.read32 loc)] ++
        [bitmapBytes mbt, sizeofMem] := rfl
  rw [bootRegions, hr, kernelMemAt_eq, hsizes, bumpRegions_append, kmainStart_eq]
  rfl

end boot

/-- Where `pmem_init` puts the heap, and what it leaves of `kernel_mem`. -/
theorem pmemInit_layout {fuel loc initrdEnd : ℕ} {mbt : MultibootInfo} {s : Boot}
    {pre post : List MmapEntry} {e : MmapEntry}
    (hmap : readMmap s.heap.mem (w32 (mbt.mmapAddr + mbt.mmapLength)) fuel mbt.mmapAddr =
      some (pre ++ e :: post))
    (hpre : ∀ d ∈ pre, ¬ d.Usable) (he : e.Usable)
    (hnull : kernelMemAt mbt loc initrdEnd s ≠ 0) :
    ∃ r, pmemInit fuel mbt (kmainStart loc initrdEnd s).2 = some r ∧
      r.kernelMem = kernelMemAt mbt loc initrdEnd s ∧
      heapRegion r = ⟨w32 (e.baseAddrLow + heapOffset s.kernelSize),
        sub32 e.lengthLow (heapOffset s.kernelSize)⟩ := by
  obtain ⟨s₀, hs₀⟩ : ∃ s₀, s₀ = (kmainStart loc initrdEnd s).2 := ⟨_, rfl⟩
  have hheap : s₀.heap = s.heap := by rw [hs₀, kmainStart_eq]
  have hsize : s₀.kernelSize = s.kernelSize := by rw [hs₀, kmainStart_eq]
  have hzero : s₀.kernelMem = 0 := by rw [hs₀, kmainStart_eq]
  -- up to the first available region only the frames change
  obtain ⟨s₁, hs₁⟩ : ∃ s₁, s₁ = pre.foldl pmemEntry (pmemStart mbt s₀) := ⟨_, rfl⟩
  have hs₁' := hs₁
  rw [foldl_pmemEntry_of_not_usable pre _ hpre] at hs₁'
  have hused : s₁.memUnused = kernelMemAt mbt loc initrdEnd s := by
    rw [hs₁', kernelMemAt, hs₀]
  have hnone : s₁.kernelMem = 0 := by
    rw [hs₁']
    exact hzero
  have hksize : s₁.kernelSize = s.kernelSize := by
    rw [hs₁']
    exact hsize
  obtain ⟨h1, h2, h3⟩ := pmemEntry_of_usable he hnone
  rw [hused] at h1
  rw [hksize] at h2 h3
  -- and behind it too
  have hrest := foldl_pmemEntry_of_heap post (pmemEntry s₁ e) (h1 ▸ hnull)
  refine ⟨post.foldl pmemEntry (pmemEntry s₁ e), ?_, ?_, ?_⟩
  · rw [← hs₀, pmemInit, hheap, hmap, Option.map_some, List.foldl_append, List.foldl_cons, ← hs₁]
  · rw [hrest, h1]
  · rw [heapRegion, hrest]
    simp only [h2, h3, sub32_add_w32 _ (sub32_lt _ _)]

theorem heapOffset_lt {kernelSize : ℕ} (h : 0x100000 + kernelSize < 4294967296) :
    heapOffset kernelSize < 4294967296 := by
  rw [heapOffset, w32_of_lt (by omega)]
  omega

theorem bootSizes_pos (mbt : MultibootInfo) (nfiles : ℕ) : 0 < (bootSizes mbt nfiles).sum := by
  simp [bootSizes, sizeofFsNode]

/-- Over a memory map whose first available region holds the ramdisk, behind the kernel, the heap
meets neither the ramdisk nor what `malloc` has handed out exactly if the layout is good. -/
theorem heap_apart_iff {fuel loc initrdEnd : ℕ} {mbt : MultibootInfo} {s : Boot}
    {pre post : List MmapEntry} {e : MmapEntry}
    (hmap : readMmap s.heap.mem (w32 (mbt.mmapAddr + mbt.mmapLength)) fuel mbt.mmapAddr =
      some (pre ++ e :: post))
    (hpre : ∀ d ∈ pre, ¬ d.Usable) (he : e.Usable)
    (hfit : e.baseAddrLow + e.lengthLow ≤ 4294967296)
    (hkernel : 0x100000 + s.kernelSize ≤ loc) (hlo : e.baseAddrLow ≤ loc) (hloc : loc < initrdEnd)
    (hend : initrdEnd ≤ e.baseAddrLow + e.lengthLow)
    (hnull : kernelMemAt mbt loc initrdEnd s ≠ 0) :
    ∃ r, pmemInit fuel mbt (kmainStart loc initrdEnd s).2 = some r ∧
      ((∀ g ∈ bootRegions mbt loc initrdEnd s r, (heapRegion r).Apart g) ↔
        LayoutGood e.baseAddrLow e.lengthLow (heapOffset s.kernelSize) initrdEnd
          (bootSizes mbt (s.heap.mem.read32 loc)).sum) := by
  obtain ⟨r, hr, hmem, hregion⟩ := pmemInit_layout hmap hpre he hnull
  have hpos := he.2
  refine ⟨r, hr, ?_⟩
  rw [bootRegions_eq hmem, hregion, List.forall_mem_cons, apart_bumpRegions_iff]
  exact heap_apart_layout hfit (by omega) (heapOffset_lt (by omega)) hlo hloc hend
    (bootSizes_pos _ _)

/-! ### A machine with 128 MiB and a ramdisk at 4 MiB -/

theorem kernelMemAt_small : kernelMemAt smallInfo 4194304 4199172 smallBoot ≠ 0 := by
  decide +kernel

theorem readMmap_smallBoot : readMmap smallBoot.heap.mem
    (w32 (smallInfo.mmapAddr + smallInfo.mmapLength)) 4 smallInfo.mmapAddr =
      some ([⟨0, 651264, 1⟩, ⟨651264, 397312, 2⟩] ++ ⟨1048576, 133169152, 1⟩ :: []) :=
  readMmap_small

/-- The theorem for this machine. -/
theorem heap_apart_iff_small :
    ∃ r, pmemInit 4 smallInfo (kmainStart 4194304 4199172 smallBoot).2 = some r ∧
      ((∀ g ∈ bootRegions smallInfo 4194304 4199172 smallBoot r, (heapRegion r).Apart g) ↔
        LayoutGood 1048576 133169152 (heapOffset smallBoot.kernelSize) 4199172
          (bootSizes smallInfo (smallBoot.heap.mem.read32 4194304)).sum) :=
  heap_apart_iff readMmap_smallBoot (by decide) (by decide) (by decide) (by decide) (by decide)
    (by decide) (by decide) kernelMemAt_small

/-- There the heap starts below the ramdisk and contains it. -/
theorem heap_overlaps :
    ∃ r, pmemInit 4 smallInfo (kmainStart 4194304 4199172 smallBoot).2 = some r ∧
      heapRegion r = ⟨1241088, 132976640⟩ ∧
      ¬ ∀ g ∈ bootRegions smallInfo 4194304 4199172 smallBoot r, (heapRegion r).Apart g := by
  obtain ⟨r, hr, -, hregion⟩ :=
    pmemInit_layout readMmap_smallBoot (by decide) (by decide) kernelMemAt_small
  have hoff : heapOffset smallBoot.kernelSize = 192512 := by decide +kernel
  rw [hoff, w32_of_lt (by decide), sub32_of_le (by decide) (by decide)] at hregion
  refine ⟨r, hr, hregion, fun h => ?_⟩
  -- the first byte of the ramdisk
  refine h ⟨4194304, 4199172 - 4194304⟩ List.mem_cons_self 4194304 ?_ ?_
  · rw [hregion, Region.has_iff (by decide)]
    decide
  · rw [Region.has_iff (by decide)]
    decide

end Owmice.Frames
