import Owmice.Memory

/-! # The kernel heap (`mem/heap.h`)

A heap is a linked list of blocks.  A block of `size` bytes at address `hb` starts with a
20-byte `KHEAPBLOCKLCAB`, and behind it lie chunks: an 8-byte `KHEAPHDRLCAB` and a payload.
A header keeps the payload length of its predecessor (`prevsize`) and, in one word, its own
payload length and in bit 31 the used flag (`flagsize`).  `sz & 0x7fffffff` is written
`sz % 2147483648`, and a flag is clear when `flagsize < 2147483648`.

Blocks and headers are in memory; the descriptor `KHEAPLCAB` is the kernel's global variable
`kernel_heap` and is kept beside the memory (`Owmice.KernelHeap` has it in memory, too).  The
loops of the source have no bound on an arbitrary memory: they take fuel, and `none` means that
they have not ended. -/

namespace Owmice.Heap

/-- `KHEAPLCAB`. -/
structure KHeapLCAB where
  fblock : ℕ
  bcnt : ℕ
  memInUse : ℕ
  size : ℕ
deriving DecidableEq, Repr

/-- Memory and the heap descriptor. -/
structure HeapState where
  mem : Mem
  heap : KHeapLCAB

/-! ### Fields of the structures in memory -/

/-- `hb->size`. -/
def hbSize (m : Mem) (hb : ℕ) : ℕ := m.read32 hb
/-- `hb->used`. -/
def hbUsed (m : Mem) (hb : ℕ) : ℕ := m.read32 (hb + 4)
/-- `hb->next`. -/
def hbNext (m : Mem) (hb : ℕ) : ℕ := m.read32 (hb + 8)
/-- `hb->lastdsize`. -/
def hbLastdsize (m : Mem) (hb : ℕ) : ℕ := m.read32 (hb + 12)
/-- `hdr->prevsize`. -/
def prevsize (m : Mem) (hdr : ℕ) : ℕ := m.read32 hdr
/-- `hdr->flagsize`. -/
def flagsize (m : Mem) (hdr : ℕ) : ℕ := m.read32 (hdr + 4)
/-- `hdr->flagsize & 0x7fffffff`. -/
def chunkSize (m : Mem) (hdr : ℕ) : ℕ := flagsize m hdr % 2147483648

namespace HeapState

/-- Store `v` at address `a`. -/
def poke (s : HeapState) (a v : ℕ) : HeapState := { s with mem := s.mem.write32 a v }
/-- `hdr->prevsize = v`. -/
def setPrevsize (s : HeapState) (hdr v : ℕ) : HeapState := s.poke hdr v
/-- `hdr->flagsize = v`. -/
def setFlagsize (s : HeapState) (hdr v : ℕ) : HeapState := s.poke (hdr + 4) v
/-- `hb->used += n; heap->mem_in_use += n`. -/
def addUsed (s : HeapState) (hb n : ℕ) : HeapState :=
  { mem := s.mem.write32 (hb + 4) (hbUsed s.mem hb + n)
    heap := { s.heap with memInUse := w32 (s.heap.memInUse + n) } }
/-- `hb->used -= n; heap->mem_in_use -= n`. -/
def subUsed (s : HeapState) (hb n : ℕ) : HeapState :=
  { mem := s.mem.write32 (hb + 4) (sub32 (hbUsed s.mem hb) n)
    heap := { s.heap with memInUse := sub32 s.heap.memInUse n } }

variable (s : HeapState) (hb hdr a v n : ℕ)

-- Proved by `simp only`: a proof by `rfl` would have the two memories compared.
@[simp] theorem poke_mem : (s.poke a v).mem = s.mem.write32 a v := by simp only [poke]

@[simp] theorem poke_heap : (s.poke a v).heap = s.heap := by simp only [poke]

@[simp] theorem setPrevsize_mem : (s.setPrevsize hdr v).mem = s.mem.write32 hdr v := by
  simp only [setPrevsize, poke]

@[simp] theorem setPrevsize_heap : (s.setPrevsize hdr v).heap = s.heap := by
  simp only [setPrevsize, poke]

@[simp] theorem setFlagsize_mem : (s.setFlagsize hdr v).mem = s.mem.write32 (hdr + 4) v := by
  simp only [setFlagsize, poke]

@[simp] theorem setFlagsize_heap : (s.setFlagsize hdr v).heap = s.heap := by
  simp only [setFlagsize, poke]

@[simp] theorem addUsed_mem :
    (s.addUsed hb n).mem = s.mem.write32 (hb + 4) (hbUsed s.mem hb + n) := by
  simp only [addUsed]

@[simp] theorem addUsed_fblock : (s.addUsed hb n).heap.fblock = s.heap.fblock := by
  simp only [addUsed]

@[simp] theorem subUsed_mem :
    (s.subUsed hb n).mem = s.mem.write32 (hb + 4) (sub32 (hbUsed s.mem hb) n) := by
  simp only [subUsed]

@[simp] theorem subUsed_fblock : (s.subUsed hb n).heap.fblock = s.heap.fblock := by
  simp only [subUsed]

end HeapState

/-! ### Set-up -/

/-- `k_heapLCABInit`: the field `size` is left as it is. -/
def kHeapLCABInit (heap : KHeapLCAB) : KHeapLCAB :=
  { heap with fblock := 0, bcnt := 0, memInUse := 0 }

/-- `k_heapLCABAddBlock`: the first header gets a size, but no `prevsize`. -/
def kHeapLCABAddBlock (s : HeapState) (addr size : ℕ) : HeapState :=
  let hb := addr
  let m := s.mem.write32 hb size
  let m := m.write32 (hb + 4) 0
  let m := m.write32 (hb + 8) s.heap.fblock
  let hdr := hb + 20
  let m := m.write32 (hdr + 4) (sub32 (hbSize m hb) (20 + 32))
  let m := m.write32 (hb + 12) 0
  let m := m.write32 (hb + 16) 0
  { mem := m
    heap := { s.heap with
      size := w32 (s.heap.size + size), fblock := hb, bcnt := w32 (s.heap.bcnt + 1) } }

/-! ### Allocation -/

/-- The walk over the headers of one block: the first free chunk of at least `size` bytes
(`some (some hdr)`), or the end of the block (`some none`). -/
def allocScan (m : Mem) (hb size : ℕ) : ℕ → ℕ → Option (Option ℕ)
  | 0, _ => none
  | fuel + 1, hdr =>
      if hdr < w32 (hb + hbSize m hb) then
        if flagsize m hdr < 2147483648 ∧ size ≤ chunkSize m hdr then some (some hdr)
        else allocScan m hb size fuel (w32 (hdr + 8 + chunkSize m hdr))
      else some none

/-- The walk over the blocks: a block is entered when its counters leave room for `size` bytes
and a header.  Nothing is written before a chunk has been chosen. -/
def allocFind (m : Mem) (size fuel : ℕ) : ℕ → ℕ → Option (Option (ℕ × ℕ))
  | 0, _ => none
  | n + 1, hb =>
      if hb = 0 then some none
      else if w32 (size + 8) ≤ sub32 (hbSize m hb) (hbUsed m hb) then
        match allocScan m hb size fuel (w32 (hb + 20)) with
        | none => none
        | some none => allocFind m size fuel n (hbNext m hb)
        | some (some hdr) => some (some (hb, hdr))
      else allocFind m size fuel n (hbNext m hb)

/-- The chosen chunk is split when more than 16 bytes are left over, and is taken whole
otherwise. -/
def allocTake (s : HeapState) (hb hdr size : ℕ) : HeapState :=
  let sz := chunkSize s.mem hdr
  let s :=
    if w32 (size + 8 + 16) < sz then
      let rest := w32 (hdr + 8 + size)
      let s := s.setFlagsize rest (sub32 sz (w32 (size + 8)))
      let s := s.setPrevsize rest size
      let s := s.setFlagsize hdr (2147483648 ||| size)
      s.addUsed hb 8
    else s.setFlagsize hdr (flagsize s.mem hdr ||| 2147483648)
  s.addUsed hb size

/-- `k_heapLCABAlloc`: the address of the payload (`0` when there is no chunk). -/
def kHeapLCABAlloc (fuel : ℕ) (s : HeapState) (size : ℕ) : Option (ℕ × HeapState) :=
  match allocFind s.mem size fuel fuel s.heap.fblock with
  | none => none
  | some none => some (0, s)
  | some (some (hb, hdr)) => some (w32 (hdr + 8), allocTake s hb hdr size)

/-! ### Release -/

/-- The first statement of `k_heapLCABFree`: the used flag is cleared before the block is known. -/
def freeUnflag (s : HeapState) (hdr : ℕ) : HeapState :=
  s.setFlagsize hdr (flagsize s.mem hdr % 2147483648)

/-- The block that `ptr` points into.  `none` when there is none: the source then reports the
pointer and loops for ever. -/
def freeFind (m : Mem) (ptr : ℕ) : ℕ → ℕ → Option ℕ
  | 0, _ => none
  | n + 1, hb =>
      if hb = 0 then none
      else if hb < ptr ∧ ptr < w32 (hb + hbSize m hb) then some hb
      else freeFind m ptr n (hbNext m hb)

/-- The chunk becomes free and leaves the counters. -/
def freeClear (s : HeapState) (hb hdr : ℕ) : HeapState :=
  let s := freeUnflag s hdr
  s.subUsed hb (flagsize s.mem hdr)

/-- `phdr`: the source starts from the address of its own local variable `hdr` (`hdrVar`), not
from the header. -/
def freePhdr (m : Mem) (hdr hdrVar : ℕ) : ℕ :=
  if prevsize m hdr ≠ 0 then sub32 hdrVar (w32 (8 + prevsize m hdr)) else 0

/-- `nhdr`: the following header, `0` at the end of the block. -/
def freeNhdr (m : Mem) (hb hdr : ℕ) : ℕ :=
  let nhdr := w32 (hdr + 8 + flagsize m hdr)
  if w32 (hb + hbSize m hb) ≤ nhdr then 0 else nhdr

/-- Merge with the following chunk. -/
def freeForward (s : HeapState) (hb hdr nhdr : ℕ) : HeapState :=
  if nhdr ≠ 0 ∧ flagsize s.mem nhdr < 2147483648 then
    let s := s.setFlagsize hdr (flagsize s.mem hdr + 8 + flagsize s.mem nhdr)
    let s := s.subUsed hb 8
    s.setPrevsize (w32 (hdr + 8 + flagsize s.mem hdr)) (flagsize s.mem hdr)
  else s

/-- Merge with the preceding chunk; the header to remember is returned with the state. -/
def freeBackward (s : HeapState) (hb hdr phdr : ℕ) : ℕ × HeapState :=
  if phdr ≠ 0 ∧ flagsize s.mem phdr < 2147483648 then
    let s := s.setFlagsize phdr (flagsize s.mem phdr + 8 + flagsize s.mem hdr)
    let s := s.subUsed hb 8
    let nhdr := w32 (phdr + 8 + flagsize s.mem phdr)
    if nhdr < w32 (hb + 20 + hbSize s.mem hb) then
      (phdr, s.setPrevsize nhdr (flagsize s.mem phdr))
    else (phdr, s)
  else (hdr, s)

/-- The "optimization": remember the largest chunk freed. -/
def freeNote (s : HeapState) (hb hdr : ℕ) : HeapState :=
  if hbLastdsize s.mem hb < flagsize s.mem hdr then
    let s := s.poke (hb + 12) (flagsize s.mem hdr)
    s.poke (hb + 16) hdr
  else s

/-- The body of the search loop for the block `hb` that holds `ptr`. -/
def freeIn (s : HeapState) (hb hdr hdrVar : ℕ) : HeapState :=
  let s := freeClear s hb hdr
  let phdr := freePhdr s.mem hdr hdrVar
  let nhdr := freeNhdr s.mem hb hdr
  let s := freeForward s hb hdr nhdr
  let (hdr, s) := freeBackward s hb hdr phdr
  freeNote s hb hdr

/-- `k_heapLCABFree`; `hdrVar` is the address of its local variable `hdr`. -/
def kHeapLCABFree (fuel : ℕ) (s : HeapState) (hdrVar ptr : ℕ) : Option HeapState :=
  let hdr := sub32 ptr 8
  let s := freeUnflag s hdr
  match freeFind s.mem ptr fuel s.heap.fblock with
  | none => none
  | some hb => some (freeIn s hb hdr hdrVar)

end Owmice.Heap
