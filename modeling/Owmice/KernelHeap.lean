import Owmice.HeapTags

/-! # The heap with its descriptor in memory

`kernel_heap` is a global variable: 16 bytes of the memory in which the blocks lie, and the
bytes of a release that goes wrong can land in it.  Here the functions of `mem/heap.h` work on
memory alone, with the pointer `heap` that the source passes to them, and every access to
`heap->...` is an access to memory.

`view heap n m` is the state of `Owmice.Heap` in memory `m`: the descriptor is read out of its
16 bytes, and the bytes themselves, which nobody looks at there, are those of a memory `n`.  A
function whose other accesses miss the descriptor commutes with `view`.

* `alloc_sysInv`, `free_sysInv`: what a request and a release do to the heap in memory, when
  the release does not merge through the address of its local variable. -/

namespace Owmice.KernelHeap

open Heap Tiling

/-! ### The functions of the source -/

/-- `heap->fblock`. -/
def fblock (m : Mem) (heap : ℕ) : ℕ := m.read32 heap
/-- `heap->bcnt`. -/
def bcnt (m : Mem) (heap : ℕ) : ℕ := m.read32 (heap + 4)
/-- `heap->mem_in_use`. -/
def memInUse (m : Mem) (heap : ℕ) : ℕ := m.read32 (heap + 8)
/-- `heap->size`. -/
def heapSize (m : Mem) (heap : ℕ) : ℕ := m.read32 (heap + 12)

/-- `k_heapLCABInit`. -/
def kHeapLCABInit (heap : ℕ) (m : Mem) : Mem :=
  let m := m.write32 heap 0
  let m := m.write32 (heap + 4) 0
  m.write32 (heap + 8) 0

/-- `k_heapLCABAddBlock`. -/
def kHeapLCABAddBlock (heap : ℕ) (m : Mem) (addr size : ℕ) : Mem :=
  let m := m.write32 (heap + 12) (heapSize m heap + size)
  let hb := addr
  let m := m.write32 hb size
  let m := m.write32 (hb + 4) 0
  let m := m.write32 (hb + 8) (fblock m heap)
  let m := m.write32 heap hb
  let hdr := hb + 20
  let m := m.write32 (hdr + 4) (sub32 (hbSize m hb) (20 + 32))
  let m := m.write32 (heap + 4) (bcnt m heap + 1)
  let m := m.write32 (hb + 12) 0
  m.write32 (hb + 16) 0

/-- `hb->used += n; heap->mem_in_use += n`. -/
def addUsed (heap : ℕ) (m : Mem) (hb n : ℕ) : Mem :=
  let m := m.write32 (hb + 4) (hbUsed m hb + n)
  m.write32 (heap + 8) (memInUse m heap + n)

/-- `hb->used -= n; heap->mem_in_use -= n`. -/
def subUsed (heap : ℕ) (m : Mem) (hb n : ℕ) : Mem :=
  let m := m.write32 (hb + 4) (sub32 (hbUsed m hb) n)
  m.write32 (heap + 8) (sub32 (memInUse m heap) n)

/-- The chosen chunk is split, or taken whole. -/
def allocTake (heap : ℕ) (m : Mem) (hb hdr size : ℕ) : Mem :=
  let sz := chunkSize m hdr
  let m :=
    if w32 (size + 8 + 16) < sz then
      let rest := w32 (hdr + 8 + size)
      let m := m.write32 (rest + 4) (sub32 sz (w32 (size + 8)))
      let m := m.write32 rest size
      let m := m.write32 (hdr + 4) (2147483648 ||| size)
      addUsed heap m hb 8
    else m.write32 (hdr + 4) (flagsize m hdr ||| 2147483648)
  addUsed heap m hb size

/-- `k_heapLCABAlloc`; the walks are those of `Owmice.Heap`, which write nothing. -/
def kHeapLCABAlloc (heap fuel : ℕ) (m : Mem) (size : ℕ) : Option (ℕ × Mem) :=
  match allocFind m size fuel fuel (fblock m heap) with
  | none => none
  | some none => some (0, m)
  | some (some (hb, hdr)) => some (w32 (hdr + 8), allocTake heap m hb hdr size)

/-- `hdr->flagsize &= ~0x80000000`. -/
def freeUnflag (m : Mem) (hdr : ℕ) : Mem := m.write32 (hdr + 4) (flagsize m hdr % 2147483648)

/-- The chunk becomes free and leaves the counters, `mem_in_use` first. -/
def freeClear (heap : ℕ) (m : Mem) (hb hdr : ℕ) : Mem :=
  let m := freeUnflag m hdr
  let m := m.write32 (heap + 8) (sub32 (memInUse m heap) (flagsize m hdr))
  m.write32 (hb + 4) (sub32 (hbUsed m hb) (flagsize m hdr))

/-- Merge with the following chunk. -/
def freeForward (heap : ℕ) (m : Mem) (hb hdr nhdr : ℕ) : Mem :=
  if nhdr ≠ 0 ∧ flagsize m nhdr < 2147483648 then
    let m := m.write32 (hdr + 4) (flagsize m hdr + 8 + flagsize m nhdr)
    let m := subUsed heap m hb 8
    m.write32 (w32 (hdr + 8 + flagsize m hdr)) (flagsize m hdr)
  else m

/-- Merge with the preceding chunk; the header to remember is returned with the memory. -/
def freeBackward (heap : ℕ) (m : Mem) (hb hdr phdr : ℕ) : ℕ × Mem :=
  if phdr ≠ 0 ∧ flagsize m phdr < 2147483648 then
    let m := m.write32 (phdr + 4) (flagsize m phdr + 8 + flagsize m hdr)
    let m := subUsed heap m hb 8
    let nhdr := w32 (phdr + 8 + flagsize m phdr)
    if nhdr < w32 (hb + 20 + hbSize m hb) then (phdr, m.write32 nhdr (flagsize m phdr))
    else (phdr, m)
  else (hdr, m)

/-- The "optimization": remember the largest chunk freed. -/
def freeNote (m : Mem) (hb hdr : ℕ) : Mem :=
  if hbLastdsize m hb < flagsize m hdr then
    let m := m.write32 (hb + 12) (flagsize m hdr)
    m.write32 (hb + 16) hdr
  else m

/-- The body of the search loop for the block `hb` that holds `ptr`. -/
def freeIn (heap : ℕ) (m : Mem) (hb hdr hdrVar : ℕ) : Mem :=
  let m := freeClear heap m hb hdr
  let phdr := freePhdr m hdr hdrVar
  let nhdr := freeNhdr m hb hdr
  let m := freeForward heap m hb hdr nhdr
  let (hdr, m) := freeBackward heap m hb hdr phdr
  freeNote m hb hdr

/-- `k_heapLCABFree`; `hdrVar` is the address of its local variable `hdr`. -/
def kHeapLCABFree (heap fuel : ℕ) (m : Mem) (hdrVar ptr : ℕ) : Option Mem :=
  let hdr := sub32 ptr 8
  let m := freeUnflag m hdr
  match freeFind m ptr fuel (fblock m heap) with
  | none => none
  | some hb => some (freeIn heap m hb hdr hdrVar)

/-- A release takes no free chunk for the preceding one: the word that it reads as `flagsize`
of the header at `&hdr - (8 + prevsize)` has the used flag, or there is no preceding chunk. -/
def FreeIdle (heap : ℕ) (m : Mem) (hb hdr hdrVar : ℕ) : Prop :=
  let m := freeClear heap m hb hdr
  let phdr := freePhdr m hdr hdrVar
  phdr ≠ 0 → 2147483648 ≤ flagsize (freeForward heap m hb hdr (freeNhdr m hb hdr)) phdr

instance (heap : ℕ) (m : Mem) (hb hdr hdrVar : ℕ) : Decidable (FreeIdle heap m hb hdr hdrVar) := by
  unfold FreeIdle
  infer_instance

/-! ### The state of the heap in memory -/

/-- `*heap`. -/
def descriptor (m : Mem) (heap : ℕ) : KHeapLCAB :=
  ⟨fblock m heap, bcnt m heap, memInUse m heap, heapSize m heap⟩

/-- Byte `y` belongs to the descriptor. -/
def InHeap (heap y : ℕ) : Prop := heap ≤ y ∧ y < heap + 16

instance (heap y : ℕ) : Decidable (InHeap heap y) := by
  unfold InHeap
  infer_instance

/-- The memory `m` with the bytes of the descriptor taken from `n`. -/
def under (heap : ℕ) (n m : Mem) : Mem := fun y => if InHeap heap y then n y else m y

/-- The heap in memory `m`, seen as a state of `Owmice.Heap`. -/
def view (heap : ℕ) (n m : Mem) : HeapState := ⟨under heap n m, descriptor m heap⟩

/-- The word at `a` has no byte of the descriptor. -/
def Off (heap a : ℕ) : Prop := ∀ y, InWord a y → ¬ InHeap heap y

section view

variable {heap : ℕ} {n m : Mem}

theorem under_self : under heap m m = m := by
  funext y
  simp [under]

theorem view_self : view heap m m = ⟨m, descriptor m heap⟩ := by rw [view, under_self]

theorem read_under {a : ℕ} (h : Off heap a) : (under heap n m).read32 a = m.read32 a :=
  Mem.read32_congr fun y hy => by simp only [under, h y hy, if_false]

/-- A word outside the descriptor is written in both memories. -/
theorem under_write_off {a : ℕ} (v : ℕ) (h : Off heap a) :
    under heap n (m.write32 a v) = (under heap n m).write32 a v := by
  funext y
  by_cases hy : InHeap heap y
  · rw [Mem.write32_of_not_inWord _ _ fun hw => h y hw hy]
    simp only [under, hy, if_true]
  · simp only [under, hy, if_false, Mem.write32]

variable (hfit : heap + 16 ≤ 4294967296)

include hfit

/-- The four words of the descriptor. -/
theorem word_in {k : ℕ} (hk : k ≤ 12) : ∀ y, InWord (heap + k) y → InHeap heap y := by
  intro y hy
  have := hy.le_lt (by omega)
  exact ⟨by omega, by omega⟩

theorem read_word {a v k : ℕ} (hk : k ≤ 12) (h : Off heap a) :
    (m.write32 a v).read32 (heap + k) = m.read32 (heap + k) :=
  (Mem.only_write32 m a v).read32 fun y hy hy' => h y hy' (word_in hfit hk y hy)

theorem read_off {a v k : ℕ} (hk : k ≤ 12) (h : Off heap a) :
    (m.write32 (heap + k) v).read32 a = m.read32 a :=
  (Mem.only_write32 m _ v).read32 fun y hy hy' => h y hy (word_in hfit hk y hy')

theorem descriptor_write {a : ℕ} (v : ℕ) (h : Off heap a) :
    descriptor (m.write32 a v) heap = descriptor m heap := by
  have h0 := read_word (m := m) (v := v) hfit (show 0 ≤ 12 by omega) h
  have h1 := read_word (m := m) (v := v) hfit (show 4 ≤ 12 by omega) h
  have h2 := read_word (m := m) (v := v) hfit (show 8 ≤ 12 by omega) h
  have h3 := read_word (m := m) (v := v) hfit (show 12 ≤ 12 by omega) h
  rw [Nat.add_zero] at h0
  simp only [descriptor, fblock, bcnt, memInUse, heapSize, h0, h1, h2, h3]

theorem view_write {a : ℕ} (v : ℕ) (h : Off heap a) :
    view heap n (m.write32 a v) = (view heap n m).poke a v := by
  simp only [view, HeapState.poke, under_write_off v h, descriptor_write hfit v h]

/-- A word of the descriptor is replaced anyway. -/
theorem under_word {k : ℕ} (v : ℕ) (hk : k ≤ 12) :
    under heap n (m.write32 (heap + k) v) = under heap n m := by
  funext y
  by_cases hy : InHeap heap y
  · simp only [under, hy, if_true]
  · simp only [under, hy, if_false]
    exact Mem.write32_of_not_inWord _ _ fun hw => hy (word_in hfit hk y hw)

theorem descriptor_fblock (v : ℕ) :
    descriptor (m.write32 heap v) heap = { descriptor m heap with fblock := w32 v } := by
  simp (disch := omega) only [descriptor, fblock, bcnt, memInUse, heapSize, Mem.read32_write32,
    Mem.read32_write32_of_disjoint]

theorem descriptor_bcnt (v : ℕ) :
    descriptor (m.write32 (heap + 4) v) heap = { descriptor m heap with bcnt := w32 v } := by
  simp (disch := omega) only [descriptor, fblock, bcnt, memInUse, heapSize, Mem.read32_write32,
    Mem.read32_write32_of_disjoint]

theorem descriptor_memInUse (v : ℕ) :
    descriptor (m.write32 (heap + 8) v) heap = { descriptor m heap with memInUse := w32 v } := by
  simp (disch := omega) only [descriptor, fblock, bcnt, memInUse, heapSize, Mem.read32_write32,
    Mem.read32_write32_of_disjoint]

theorem descriptor_heapSize (v : ℕ) :
    descriptor (m.write32 (heap + 12) v) heap = { descriptor m heap with size := w32 v } := by
  simp (disch := omega) only [descriptor, fblock, bcnt, memInUse, heapSize, Mem.read32_write32,
    Mem.read32_write32_of_disjoint]

theorem view_memInUse (v : ℕ) :
    view heap n (m.write32 (heap + 8) v) =
      { view heap n m with heap := { descriptor m heap with memInUse := w32 v } } := by
  simp only [view, under_word hfit v (show 8 ≤ 12 by omega), descriptor_memInUse hfit]

/-! ### The functions commute with the view -/

theorem view_addUsed {hb : ℕ} (k : ℕ) (h : Off heap (hb + 4)) :
    view heap n (addUsed heap m hb k) = (view heap n m).addUsed hb k := by
  simp only [addUsed, view_memInUse hfit, view_write hfit _ h, descriptor_write hfit _ h,
    HeapState.addUsed, HeapState.poke, memInUse, read_word hfit (show 8 ≤ 12 by omega) h]
  simp only [view, hbUsed, read_under h, descriptor, memInUse]

theorem view_subUsed {hb : ℕ} (k : ℕ) (h : Off heap (hb + 4)) :
    view heap n (subUsed heap m hb k) = (view heap n m).subUsed hb k := by
  simp only [subUsed, view_memInUse hfit, view_write hfit _ h, descriptor_write hfit _ h,
    HeapState.subUsed, HeapState.poke, memInUse, read_word hfit (show 8 ≤ 12 by omega) h,
    w32_of_lt (sub32_lt _ _)]
  simp only [view, hbUsed, read_under h, descriptor, memInUse]

theorem view_allocTake {hb hdr size : ℕ} (hhb : Off heap (hb + 4)) (hhdr : Off heap (hdr + 4))
    (hrest : w32 (size + 8 + 16) < chunkSize m hdr →
      Off heap (w32 (hdr + 8 + size)) ∧ Off heap (w32 (hdr + 8 + size) + 4)) :
    view heap n (allocTake heap m hb hdr size) = Heap.allocTake (view heap n m) hb hdr size := by
  have hflag : flagsize (view heap n m).mem hdr = flagsize m hdr := read_under hhdr
  have hsz : chunkSize (view heap n m).mem hdr = chunkSize m hdr := by
    rw [chunkSize, chunkSize, hflag]
  simp only [allocTake, Heap.allocTake, hsz, hflag, view_addUsed hfit _ hhb]
  by_cases hs : w32 (size + 8 + 16) < chunkSize m hdr
  · obtain ⟨h1, h2⟩ := hrest hs
    simp only [hs, if_true, view_addUsed hfit _ hhb, view_write hfit _ hhdr, view_write hfit _ h1,
      view_write hfit _ h2, HeapState.setFlagsize, HeapState.setPrevsize]
  · simp only [hs, if_false, view_write hfit _ hhdr, HeapState.setFlagsize]

theorem view_freeUnflag {hdr : ℕ} (hhdr : Off heap (hdr + 4)) :
    view heap n (freeUnflag m hdr) = Heap.freeUnflag (view heap n m) hdr := by
  have hflag : flagsize (view heap n m).mem hdr = flagsize m hdr := read_under hhdr
  simp only [freeUnflag, Heap.freeUnflag, hflag, view_write hfit _ hhdr, HeapState.setFlagsize]

theorem view_freeClear {hb hdr : ℕ} (hhb : Off heap (hb + 4)) (hhdr : Off heap (hdr + 4)) :
    view heap n (freeClear heap m hb hdr) = Heap.freeClear (view heap n m) hb hdr := by
  have hused : ∀ v, hbUsed ((freeUnflag m hdr).write32 (heap + 8) v) hb =
      hbUsed (freeUnflag m hdr) hb := fun v => read_off hfit (show 8 ≤ 12 by omega) hhb
  have hflag : ∀ v, flagsize ((freeUnflag m hdr).write32 (heap + 8) v) hdr =
      flagsize (freeUnflag m hdr) hdr := fun v => read_off hfit (show 8 ≤ 12 by omega) hhdr
  simp only [freeClear, Heap.freeClear, hused, hflag, view_write hfit _ hhb, view_memInUse hfit,
    ← view_freeUnflag hfit hhdr, HeapState.subUsed, HeapState.poke, w32_of_lt (sub32_lt _ _)]
  simp only [view, hbUsed, flagsize, read_under hhb, read_under hhdr, descriptor]

/-- The merge writes at its two headers, and at the end of the merged chunk. -/
theorem view_freeForward {hb hdr nhdr : ℕ} (hhb : Off heap (hb + 4)) (hhdr : Off heap (hdr + 4))
    (hlo : hb + 20 ≤ hdr) (hhi : hdr + 8 ≤ 4294967296)
    (hnhdr : nhdr ≠ 0 → Off heap (nhdr + 4))
    (hend : nhdr ≠ 0 → flagsize m nhdr < 2147483648 →
      Off heap (w32 (hdr + 8 + w32 (flagsize m hdr + 8 + flagsize m nhdr)))) :
    view heap n (freeForward heap m hb hdr nhdr) =
      Heap.freeForward (view heap n m) hb hdr nhdr := by
  by_cases h0 : nhdr = 0
  · simp only [freeForward, Heap.freeForward, h0, ne_eq, not_true_eq_false, false_and, if_false]
  have hflag : flagsize (view heap n m).mem hdr = flagsize m hdr := read_under hhdr
  have hnflag : flagsize (view heap n m).mem nhdr = flagsize m nhdr := read_under (hnhdr h0)
  simp only [freeForward, Heap.freeForward, hnflag, hflag]
  by_cases hfree : nhdr ≠ 0 ∧ flagsize m nhdr < 2147483648
  · simp only [hfree, ne_eq, not_false_eq_true, and_self, if_true]
    obtain ⟨m₁, hm₁⟩ : ∃ m₁, m₁ =
      subUsed heap (m.write32 (hdr + 4) (flagsize m hdr + 8 + flagsize m nhdr)) hb 8 := ⟨_, rfl⟩
    have hview : view heap n m₁ = ((view heap n m).setFlagsize hdr
        (flagsize m hdr + 8 + flagsize m nhdr)).subUsed hb 8 := by
      rw [hm₁, view_subUsed hfit 8 hhb, view_write hfit _ hhdr, HeapState.setFlagsize]
    have hnew : flagsize m₁ hdr = w32 (flagsize m hdr + 8 + flagsize m nhdr) := by
      rw [hm₁, subUsed, flagsize, read_off hfit (show 8 ≤ 12 by omega) hhdr]
      simp (disch := omega) only [Mem.read32_write32_of_disjoint, Mem.read32_write32]
    have hnew' : flagsize (view heap n m₁).mem hdr = flagsize m₁ hdr := read_under hhdr
    rw [← hm₁, ← hview, hnew', HeapState.setPrevsize, view_write hfit]
    rw [hnew]
    exact hend hfree.1 hfree.2
  · simp only [hfree, if_false]

theorem view_freeNote {hb hdr : ℕ} (h1 : Off heap (hb + 12)) (h2 : Off heap (hb + 16))
    (hhdr : Off heap (hdr + 4)) :
    view heap n (freeNote m hb hdr) = Heap.freeNote (view heap n m) hb hdr := by
  have hflag : flagsize (view heap n m).mem hdr = flagsize m hdr := read_under hhdr
  have hlast : hbLastdsize (view heap n m).mem hb = hbLastdsize m hb := read_under h1
  simp only [freeNote, Heap.freeNote, hflag, hlast]
  by_cases hs : hbLastdsize m hb < flagsize m hdr
  · simp only [hs, if_true, view_write hfit _ h1, view_write hfit _ h2]
  · simp only [hs, if_false]

/-- `k_heapLCABInit` writes nothing but the descriptor. -/
theorem view_kHeapLCABInit :
    view heap n (kHeapLCABInit heap m) =
      ⟨under heap n m, Heap.kHeapLCABInit (descriptor m heap)⟩ := by
  have h0 : ∀ m' : Mem, under heap n (m'.write32 heap 0) = under heap n m' := fun m' =>
    under_word hfit 0 (Nat.zero_le 12)
  simp only [view, kHeapLCABInit, under_word hfit 0 (show 8 ≤ 12 by omega),
    under_word hfit 0 (show 4 ≤ 12 by omega), h0, descriptor_memInUse hfit, descriptor_bcnt hfit,
    descriptor_fblock hfit, Heap.kHeapLCABInit]
  simp (disch := omega) only [w32_of_lt]

/-- A block is added beside the descriptor. -/
theorem view_kHeapLCABAddBlock {addr size : ℕ} (haddr : addr + 28 ≤ 4294967296)
    (hoff : ∀ a, addr ≤ a → a + 4 ≤ addr + 28 → Off heap a) :
    view heap n (kHeapLCABAddBlock heap m addr size) =
      Heap.kHeapLCABAddBlock (view heap n m) addr size := by
  have hfirst : ∀ v (m' : Mem), under heap n (m'.write32 heap v) = under heap n m' := fun v m' =>
    under_word hfit v (Nat.zero_le 12)
  -- the words of the block and those of the descriptor do not meet
  have hread : ∀ {a : ℕ} (v : ℕ) (m' : Mem), addr ≤ a → a + 4 ≤ addr + 28 →
      (m'.write32 heap v).read32 a = m'.read32 a := fun v m' h1 h2 =>
    read_off hfit (Nat.zero_le 12) (hoff _ h1 h2)
  have hfb : ∀ {a : ℕ} (v : ℕ) (m' : Mem), addr ≤ a → a + 4 ≤ addr + 28 →
      (m'.write32 a v).read32 heap = m'.read32 heap := fun v m' h1 h2 =>
    read_word hfit (Nat.zero_le 12) (hoff _ h1 h2)
  have hbc : ∀ {a : ℕ} (v : ℕ) (m' : Mem), addr ≤ a → a + 4 ≤ addr + 28 →
      (m'.write32 a v).read32 (heap + 4) = m'.read32 (heap + 4) := fun v m' h1 h2 =>
    read_word hfit (show 4 ≤ 12 by omega) (hoff _ h1 h2)
  have hun : ∀ {a : ℕ} (v : ℕ) (m' : Mem), addr ≤ a → a + 4 ≤ addr + 28 →
      under heap n (m'.write32 a v) = (under heap n m').write32 a v := fun v m' h1 h2 =>
    under_write_off v (hoff _ h1 h2)
  have hde : ∀ {a : ℕ} (v : ℕ) (m' : Mem), addr ≤ a → a + 4 ≤ addr + 28 →
      descriptor (m'.write32 a v) heap = descriptor m' heap := fun v m' h1 h2 =>
    descriptor_write hfit v (hoff _ h1 h2)
  have hcut : w32 addr = addr := w32_of_lt (by omega)
  simp (disch := omega) only [view, kHeapLCABAddBlock, Heap.kHeapLCABAddBlock, fblock, bcnt,
    heapSize, hbSize, hfirst, hread, hfb, hbc, hun, hde, under_word hfit, descriptor_fblock hfit,
    descriptor_bcnt hfit, descriptor_heapSize hfit, Mem.read32_write32,
    Mem.read32_write32_of_disjoint, hcut]
  simp only [descriptor, fblock, bcnt, heapSize]

end view

/-! ### The descriptor beside the blocks -/

/-- The descriptor is in memory, and no byte of it lies in a block or in the word behind one. -/
def Beside (heap : ℕ) (blocks : List (ℕ × ℕ)) : Prop :=
  heap + 16 ≤ 4294967296 ∧ ∀ b ∈ blocks, ∀ y, InHeap heap y →
    ¬ (b.1 ≤ y ∧ y < b.1 + b.2) ∧ ¬ InWord (b.1 + b.2) y

section spec

variable {heap fuel ptr k hdrVar : ℕ} {blocks : List (ℕ × ℕ)} {bs : List Block}
  {live : List (ℕ × ℕ)} {m m' n : Mem}

/-- A word inside a block is not in the descriptor. -/
theorem Beside.off (h : Beside heap blocks) {b : ℕ × ℕ} (hb : b ∈ blocks)
    (hfit : b.1 + b.2 < 4294967296) {a : ℕ} (h1 : b.1 ≤ a) (h2 : a + 4 ≤ b.1 + b.2) :
    Off heap a := by
  intro y hy hin
  have := hy.le_lt (by omega)
  exact (h.2 b hb y hin).1 ⟨by omega, by omega⟩

/-- The bytes that the view takes from elsewhere are in no block. -/
theorem sysInv_of_view (hbe : Beside heap blocks) (h : SysInv blocks bs ⟨view heap n m, live⟩) :
    SysInv blocks bs ⟨⟨m, descriptor m heap⟩, live⟩ := by
  refine write_sysInv h fun y hy _ => ?_
  obtain ⟨b, hb, hy⟩ := hy
  have hout : ¬ InHeap heap y := fun hin => (hbe.2 b hb y hin).1 hy
  simp only [view, under, hout, if_false]

/-- The search of a request ends at a free chunk of a block. -/
theorem found_mem {s : HeapState} (h : HeapInv s bs) {size hb x : ℕ}
    (hf : allocFind s.mem size fuel fuel s.heap.fblock = some (some (hb, x))) :
    ∃ b c, b ∈ bs ∧ (x, c) ∈ b.headers := by
  have hfirst := allocFind_eq fuel _ bs h.blocks hf
  obtain ⟨⟨b, y, c⟩, hq, he⟩ := Option.map_eq_some_iff.mp hfirst.symm
  obtain ⟨-, rfl⟩ : b.addr = hb ∧ y = x := by simpa using he
  obtain ⟨hb, hy, -⟩ := firstFit_mem hq
  exact ⟨b, c, hb, hy⟩

/-- A request in memory. -/
theorem alloc_sysInv {size p : ℕ} (hbe : Beside heap blocks)
    (h : SysInv blocks bs ⟨⟨m, descriptor m heap⟩, live⟩)
    (hs : kHeapLCABAlloc heap fuel m size = some (p, m')) :
    (p = 0 ∧ m' = m) ∨
      ∃ bs₁ b bs₂ pre c post u, bs = bs₁ ++ b :: bs₂ ∧ b.chunks = pre ++ c :: post ∧
        allocFind m size fuel fuel (fblock m heap) =
          some (some (b.addr, stop Chunk.len (b.addr + 20) pre)) ∧
        p = stop Chunk.len (b.addr + 20) pre + 8 ∧
        SysInv blocks
          (bs₁ ++ { b with used := u, chunks := pre ++ (c.take size ++ post) } :: bs₂)
          ⟨⟨m', descriptor m' heap⟩, (p, size) :: live⟩ := by
  unfold kHeapLCABAlloc at hs
  cases hf : allocFind m size fuel fuel (fblock m heap) with
  | none => simp [hf] at hs
  | some o =>
      cases o with
      | none =>
          simp only [hf, Option.some.injEq, Prod.mk.injEq] at hs
          exact .inl ⟨hs.1.symm, hs.2.symm⟩
      | some q =>
          obtain ⟨hb, x⟩ := q
          simp only [hf, Option.some.injEq, Prod.mk.injEq] at hs
          obtain ⟨rfl, rfl⟩ := hs
          refine .inr ?_
          have hcall : Heap.kHeapLCABAlloc fuel ⟨m, descriptor m heap⟩ size =
              some (w32 (x + 8), Heap.allocTake ⟨m, descriptor m heap⟩ hb x size) := by
            have hf' : allocFind m size fuel fuel (descriptor m heap).fblock = _ := hf
            simp only [Heap.kHeapLCABAlloc, hf']
          rcases Heap.alloc_sysInv h hcall with ⟨hp, -⟩ |
            ⟨bs₁, b, bs₂, pre, c, post, u, rfl, hch, hfind, hfree, hsize, hp, h'⟩
          · -- a chunk that has been found is not at the end of memory
            obtain ⟨b, c, hb, hx⟩ := found_mem h.heap hf
            have hin := ((h.heap.blocks.mem b hb).hdrs _ hx).inside
            have hfit := (h.heap.blocks.mem b hb).fits
            simp only at hin
            rw [w32_of_lt (by omega)] at hp
            omega
          have hxe : b.addr = hb ∧ stop Chunk.len (b.addr + 20) pre = x := by
            have hf' : allocFind m size fuel fuel (descriptor m heap).fblock = _ := hf
            rw [hf', Option.some.injEq, Option.some.injEq, Prod.mk.injEq] at hfind
            exact ⟨hfind.1.symm, hfind.2.symm⟩
          obtain ⟨rfl, rfl⟩ := hxe
          refine ⟨bs₁, b, bs₂, pre, c, post, u, rfl, hch, rfl, hp, ?_⟩
          have hb : b ∈ bs₁ ++ b :: bs₂ := by simp
          have hat := h.heap.blocks.mem b hb
          obtain ⟨hc, hlo⟩ := hdrAt_split hat hch rfl
          have hpay := hc.payload hfree
          have hfit := hat.fits
          have hsz := hc.size_lt
          have hoff : ∀ a, b.addr ≤ a → a + 4 ≤ b.addr + b.size → Off heap a := fun a =>
            hbe.off (h.among b hb) hfit
          have hin := hc.inside
          have hb4 : Off heap (b.addr + 4) := hoff _ (by omega) (by omega)
          have hx4 : Off heap (stop Chunk.len (b.addr + 20) pre + 4) :=
            hoff _ (by omega) (by omega)
          have htake : view heap m (allocTake heap m b.addr _ size) = _ :=
            view_allocTake hbe.1 hb4 hx4 fun hlt => by
              rw [hc.chunkSize, w32_of_lt (by omega)] at hlt
              rw [w32_of_lt (by omega)]
              exact ⟨hoff _ (by omega) (by omega), hoff _ (by omega) (by omega)⟩
          rw [view_self] at htake
          rw [← htake] at h'
          exact sysInv_of_view hbe h'

/-- A chunk and the free one behind it end at a header of their block, or where the block ends. -/
theorem off_mergeEnd {b : Block} {pre post : List Chunk} {c d : Chunk} {x : ℕ}
    (hat : BlockAt m b) (hch : b.chunks = pre ++ c :: d :: post)
    (hxe : x = stop Chunk.len (b.addr + 20) pre) (hd0 : d.used = false)
    (hoff : ∀ a, b.addr ≤ a → a + 4 ≤ b.addr + b.size → Off heap a)
    (hbehind : Off heap (b.addr + b.size)) : Off heap (x + 8 + (c.size + 8 + d.size)) := by
  have hend : x + 8 + (c.size + 8 + d.size) = x + c.len + d.len := by
    simp only [Chunk.len]
    omega
  rw [hend]
  cases post with
  | nil =>
      have hreach := hat.reach
      rw [hch, stop_append, ← hxe, stop_cons, stop_cons, stop_nil] at hreach
      have hdpay := (hdrAt_next hat hch hxe).payload hd0
      have hstop : x + c.len + d.len = b.addr + b.size := by
        simp only [Chunk.len] at *
        omega
      rwa [hstop]
  | cons e post =>
      have hch' : b.chunks = (pre ++ [c]) ++ d :: e :: post := by simpa using hch
      have he := (hdrAt_next hat hch' rfl).inside
      have hlo := le_stop Chunk.len (b.addr + 20) pre
      rw [stop_append, ← hxe, stop_cons, stop_nil] at he
      exact hoff _ (by omega) (by omega)

/-- The forward merge of a release: the header behind the chunk is one of the block, or there is
none. -/
theorem view_forward {b : Block} {pre post : List Chunk} {c : Chunk} {x : ℕ}
    (hheap : heap + 16 ≤ 4294967296)
    (hoff : ∀ a, b.addr ≤ a → a + 4 ≤ b.addr + b.size → Off heap a)
    (hbehind : Off heap (b.addr + b.size)) (hat : BlockAt (view heap n m).mem b)
    (hch : b.chunks = pre ++ c :: post) (hxe : x = stop Chunk.len (b.addr + 20) pre)
    (hfree : c.used = false) :
    freeNhdr (view heap n m).mem b.addr x = freeNhdr m b.addr x ∧
      view heap n (freeForward heap m b.addr x (freeNhdr m b.addr x)) =
        Heap.freeForward (view heap n m) b.addr x (freeNhdr m b.addr x) := by
  obtain ⟨hc, hlo⟩ := hdrAt_split hat hch hxe
  have hfit := hat.fits
  have hinside := hc.inside
  have hx4 : Off heap (x + 4) := hoff _ (by omega) (by omega)
  have hb4 : Off heap (b.addr + 4) := hoff _ (by omega) (by omega)
  have hxflag : flagsize (view heap n m).mem x = flagsize m x := read_under hx4
  have hsize : hbSize (view heap n m).mem b.addr = hbSize m b.addr :=
    read_under (hoff _ le_rfl (by omega))
  have hsame : freeNhdr (view heap n m).mem b.addr x = freeNhdr m b.addr x := by
    simp only [freeNhdr, hxflag, hsize]
  refine ⟨hsame, ?_⟩
  rw [← hsame, freeNhdr_eq hc hfit hat.size_eq hfree]
  by_cases hend : b.addr + b.size ≤ x + c.len
  · rw [if_pos hend]
    exact view_freeForward hheap hb4 hx4 hlo (by omega) (fun h => absurd rfl h)
      fun h => absurd rfl h
  rw [if_neg hend]
  obtain ⟨d, post, rfl⟩ : ∃ d post', post = d :: post' := by
    cases post with
    | nil =>
        have := hat.reach
        rw [hch, stop_append, ← hxe, stop_cons, stop_nil] at this
        exact absurd this hend
    | cons d post => exact ⟨d, post, rfl⟩
  have hd := hdrAt_next hat hch hxe
  have hdin := hd.inside
  have hd4 : Off heap (x + c.len + 4) := hoff _ (by omega) (by omega)
  have hdflag : flagsize m (x + c.len) = d.flagsize := by
    rw [← hd.flag]
    exact (read_under hd4).symm
  refine view_freeForward hheap hb4 hx4 hlo (by omega) (fun _ => hd4) fun _ hdfree => ?_
  have hd0 : d.used = false := by
    rw [← hd.free_iff, hd.flag, ← hdflag]
    exact hdfree
  have hdpay := hd.payload hd0
  rw [Chunk.len] at hdpay
  have hflag : flagsize m x = c.size := by
    rw [← hxflag, hc.flag]
    simp [Chunk.flagsize, hfree]
  have hdsize : d.flagsize = d.size := by simp [Chunk.flagsize, hd0]
  have hsum : w32 (c.size + 8 + d.size) = c.size + 8 + d.size := w32_of_lt (by omega)
  rw [hflag, hdflag, hdsize, hsum, w32_of_lt (by omega)]
  exact off_mergeEnd hat hch hxe hd0 hoff hbehind

/-- The search of the source and that of the view come to the same release, when the merge
with the preceding chunk is not taken; for the view that is so where the local variable is
at an address that makes `phdr` null. -/
theorem view_freeIn {b : Block} {pre post : List Chunk} {c : Chunk} {x : ℕ}
    (hheap : heap + 16 ≤ 4294967296)
    (hoff : ∀ a, b.addr ≤ a → a + 4 ≤ b.addr + b.size → Off heap a)
    (hbehind : Off heap (b.addr + b.size)) (hat : BlockAt (view heap n m).mem b)
    (hch : b.chunks = pre ++ c :: post) (hxe : x = stop Chunk.len (b.addr + 20) pre)
    (hin : x + 8 + c.size ≤ b.addr + b.size) (hidle : FreeIdle heap m b.addr x hdrVar) :
    ∃ v, view heap n (freeIn heap m b.addr x hdrVar) = Heap.freeIn (view heap n m) b.addr x v ∧
      Heap.FreeIdle (view heap n m) b.addr x v := by
  obtain ⟨hc, hlo⟩ := hdrAt_split hat hch hxe
  have hfit := hat.fits
  have hinside := hc.inside
  have hx4 : Off heap (x + 4) := hoff _ (by omega) (by omega)
  have hb4 : Off heap (b.addr + 4) := hoff _ (by omega) (by omega)
  obtain ⟨m₁, hm₁⟩ : ∃ m₁, m₁ = freeClear heap m b.addr x := ⟨_, rfl⟩
  have hclear : Heap.freeClear (view heap n m) b.addr x = view heap n m₁ := by
    rw [hm₁, view_freeClear hheap hb4 hx4]
  obtain ⟨hat₁, -⟩ := freeClear_blockAt hat hch hxe hin hclear.symm
  obtain ⟨hnhdr, hforward⟩ := view_forward
    (b := { b with used := hbUsed (view heap n m₁).mem b.addr, chunks := pre ++ c.clear :: post })
    hheap hoff hbehind hat₁ rfl hxe rfl
  -- no header precedes
  obtain ⟨v, hv⟩ : ∃ v, v = w32 (8 + prevsize (view heap n m₁).mem x) := ⟨_, rfl⟩
  have hphdr : freePhdr (view heap n m₁).mem x v = 0 := by
    rw [freePhdr, ← hv, sub32_of_le le_rfl (hv ▸ w32_lt _), Nat.sub_self, ite_self]
  refine ⟨v, ?_, fun h => absurd ?_ h⟩
  · have hback : freeBackward heap (freeForward heap m₁ b.addr x (freeNhdr m₁ b.addr x)) b.addr x
        (freePhdr m₁ x hdrVar) = (x, freeForward heap m₁ b.addr x (freeNhdr m₁ b.addr x)) := by
      rw [hm₁, freeBackward, if_neg]
      exact fun h => absurd h.2 (hidle h.1).not_gt
    have hback' : Heap.freeBackward (view heap n (freeForward heap m₁ b.addr x
        (freeNhdr m₁ b.addr x))) b.addr x 0 = (x, _) := freeBackward_idle fun h => absurd rfl h
    simp only [freeIn, Heap.freeIn, ← hm₁, hclear, hphdr, hnhdr, hback, hback', ← hforward]
    exact view_freeNote hheap (hoff _ (by omega) (by omega)) (hoff _ (by omega) (by omega)) hx4
  · rw [hclear]
    exact hphdr

/-- A release in memory that takes no free chunk for the preceding one. -/
theorem free_sysInv (hbe : Beside heap blocks)
    (h : SysInv blocks bs ⟨⟨m, descriptor m heap⟩, live⟩) (hlive : (ptr, k) ∈ live)
    (hidle : ∀ b ∈ bs, b.addr < ptr → ptr < b.addr + b.size →
      FreeIdle heap (freeUnflag m (sub32 ptr 8)) b.addr (sub32 ptr 8) hdrVar)
    (hs : kHeapLCABFree heap fuel m hdrVar ptr = some m') :
    ∃ bs₁ b bs₂ pre c post u, bs = bs₁ ++ b :: bs₂ ∧ b.chunks = pre ++ c :: post ∧
      c.used = true ∧
      SysInv blocks
        (bs₁ ++ { b with used := u, chunks := pre ++ c.clear.coalesce post } :: bs₂)
        ⟨⟨m', descriptor m' heap⟩, live.filter (fun e => e.1 ≠ ptr)⟩ := by
  obtain ⟨bs₁, b, bs₂, pre, c, post, rfl, hch, hpx, hu, hn, hin⟩ := h.live_chunk hlive
  have hb : b ∈ bs₁ ++ b :: bs₂ := by simp
  obtain ⟨x, hxe⟩ : ∃ x, x = stop Chunk.len (b.addr + 20) pre := ⟨_, rfl⟩
  rw [← hxe] at hpx hin
  have hat := h.heap.blocks.mem b hb
  obtain ⟨hc, hlo⟩ := hdrAt_split hat hch hxe
  have hfit := hat.fits
  have hinside := hc.inside
  have hhdr : sub32 ptr 8 = x := by rw [hpx, sub32_of_le (by omega) (by omega)]; omega
  have hoff : ∀ a, b.addr ≤ a → a + 4 ≤ b.addr + b.size → Off heap a := fun a =>
    hbe.off (h.among b hb) hfit
  have hx4 : Off heap (x + 4) := hoff _ (by omega) (by omega)
  have hb4 : Off heap (b.addr + 4) := hoff _ (by omega) (by omega)
  -- the search
  have hun : view heap m (freeUnflag m x) = Heap.freeUnflag ⟨m, descriptor m heap⟩ x := by
    rw [view_freeUnflag hbe.1 hx4, view_self]
  have hunmem : (Heap.freeUnflag ⟨m, descriptor m heap⟩ x).mem = freeUnflag m x := rfl
  have hfb : fblock (freeUnflag m x) heap = (descriptor m heap).fblock :=
    read_word hbe.1 (Nat.zero_le 12) hx4
  unfold kHeapLCABFree at hs
  rw [hhdr] at hs
  cases hf : freeFind (freeUnflag m x) ptr fuel (fblock (freeUnflag m x) heap) with
  | none => simp [hf] at hs
  | some r =>
      rw [hfb] at hf
      obtain ⟨rfl, hlt⟩ := freeFind_payload h.heap hch hxe hpx hin hf
      simp only [hfb, hf, Option.some.injEq] at hs
      -- the release
      have hat₀ := (unflag_heapInv h.heap hch hxe hin).blocks.mem _
        (List.mem_append_right _ List.mem_cons_self)
      rw [← hun] at hat₀
      have hbehind : Off heap (b.addr + b.size) := fun y hy hin =>
        (hbe.2 _ (h.among b hb) y hin).2 hy
      obtain ⟨v, hrel, hmiss⟩ := view_freeIn (b := { b with chunks := pre ++ c.clear :: post })
        hbe.1 hoff hbehind hat₀ rfl hxe hin (hhdr ▸ hidle b hb (by omega) hlt)
      rw [hs, hun] at hrel
      have hcall : Heap.kHeapLCABFree fuel ⟨m, descriptor m heap⟩ v ptr =
          some (view heap m m') := by
        have hf' : freeFind (Heap.freeUnflag ⟨m, descriptor m heap⟩ x).mem ptr fuel
            (Heap.freeUnflag ⟨m, descriptor m heap⟩ x).heap.fblock = some b.addr := hf
        simp only [Heap.kHeapLCABFree, hhdr, hf', hrel]
      -- the pointer lies in no other block
      have honly : ∀ d ∈ bs₁ ++ b :: bs₂, ∀ y, ptr = y + 8 → d.addr + 20 ≤ y →
          ptr < d.addr + d.size →
          FreeMisses (InBlocks blocks) (Heap.freeUnflag ⟨m, descriptor m heap⟩ y) d.addr y v := by
        intro d hd y hpy hdlo hdlt
        have hyx : y = x := by omega
        have hbd : b = d := by
          refine h.heap.eq_of_has hb hd (y := x) ⟨?_, ?_⟩ ⟨?_, ?_⟩
          all_goals omega
        rw [hun] at hmiss
        rw [hyx, ← hbd]
        exact hmiss.misses
      obtain ⟨bs₁', b', bs₂', pre', c', post', u, hbs, hch', -, hu', -, -, h'⟩ :=
        free_sysInv_of h hlive honly hcall
      exact ⟨bs₁', b', bs₂', pre', c', post', u, hbs, hch', hu', sysInv_of_view hbe h'⟩

end spec

end Owmice.KernelHeap
