import Owmice.FileReading
import Owmice.HeapRun
import Owmice.Logged

/-! # The readers of the ramdisk and the heap (`cat_initrd` and `read_initrd`)

Both functions read a file into a buffer from the heap.  `cat_initrd` prints the buffer and
releases it; `read_initrd` returns a second allocation with what has been read.  When nothing has
been read, `read_initrd` releases the buffer and returns a null pointer, and `cat_initrd` releases
it, does not return, and releases it again.

The ramdisk and the heap lie in one memory.  The live allocations are kept beside it, and a
program logs its calls of `malloc` and `free`.

* `Allocated`: what a call of `malloc` gives;
* `read_buffer`: what `read_fs` puts into the buffer;
* `readers_iff`: the files for which the buffers are released once, and for which `read_initrd`
  returns the file. -/

namespace Owmice.Vfs

open Heap Logged Tiling

/-- The file system and the heap in one memory; `live` are the allocations that are live, each
with its size. -/
structure FsHeap where
  fs : Initrd
  heap : KHeapLCAB
  live : List (ℕ × ℕ)

/-- A call of `malloc` that returns `p`, or of `free`. -/
inductive HeapCall where
  | malloc (size p : ℕ)
  | free (p : ℕ)

/-- Programs that may not end, with the calls they make, each with the state before it. -/
abbrev HeapM := OptionT (Logged (HeapSys × HeapCall))

namespace FsHeap

/-- The heap with its live allocations. -/
def sys (s : FsHeap) : HeapSys := ⟨⟨s.fs.mem, s.heap⟩, s.live⟩

/-- The state with another heap. -/
def withSys (s : FsHeap) (h : HeapSys) : FsHeap :=
  { fs := { s.fs with mem := h.st.mem }, heap := h.st.heap, live := h.live }

/-- The state with another memory. -/
def withMem (s : FsHeap) (m : Mem) : FsHeap := { s with fs := { s.fs with mem := m } }

end FsHeap

/-- `malloc`, when there is a heap. -/
def malloc (fuel : ℕ) (s : FsHeap) (sz : ℕ) : HeapM (ℕ × FsHeap) :=
  match kHeapLCABAlloc fuel s.sys.st sz with
  | none => failure
  | some (p, st) => do
      OptionT.lift (access (s.sys, .malloc sz p))
      pure (p, s.withSys ⟨st, if p = 0 then s.live else (p, sz) :: s.live⟩)

/-- `free`, when there is a heap. -/
def free (fuel hdrVar : ℕ) (s : FsHeap) (p : ℕ) : HeapM FsHeap := do
  OptionT.lift (access (s.sys, .free p))
  match kHeapLCABFree fuel s.sys.st hdrVar p with
  | none => failure
  | some st => pure (s.withSys ⟨st, s.live.filter (fun e => e.1 ≠ p)⟩)

/-- `read_initrd`; `hdrVar` is the address of a local variable of `k_heapLCABFree`. -/
def readInitrd (fuel hdrVar : ℕ) (s : FsHeap) (fname : List UInt8) : HeapM (ℕ × FsHeap) :=
  match finddirFs s.fs .root fname with
  | none => pure (0, s)
  | some fsnode => do
      let (buf, s) ← malloc fuel s initrdBufferSize
      let (sz, fs) := readFsTo s.fs fsnode 0 initrdBufferSize buf
      let s := { s with fs }
      if sz = 0 then do
        let s ← free fuel hdrVar s buf
        pure (0, s)
      else do
        let (ret, s) ← malloc fuel s sz
        let s ← free fuel hdrVar (s.withMem (s.fs.mem.memmove ret buf sz)) buf
        pure (ret, s)

/-- `Contents of %s:` and a new line. -/
def contentsOf (fname : List UInt8) : List UInt8 :=
  [67, 111, 110, 116, 101, 110, 116, 115, 32, 111, 102, 32] ++ fname ++ [58, 10]

/-- `No such file` and a new line. -/
def noSuchFile : List UInt8 := [78, 111, 32, 115, 117, 99, 104, 32, 102, 105, 108, 101, 10]

/-- `Invalid file entry or the file is too large.` and a new line. -/
def invalidEntry : List UInt8 :=
  [73, 110, 118, 97, 108, 105, 100, 32, 102, 105, 108, 101, 32, 101, 110, 116, 114, 121, 32, 111,
    114, 32, 116, 104, 101, 32, 102, 105, 108, 101, 32, 105, 115, 32, 116, 111, 111, 32, 108, 97,
    114, 103, 101, 46, 10]

/-- The loop of `cat_initrd`: a new line follows every 50th byte. -/
def catLoop (bs : List UInt8) : List UInt8 :=
  (bs.zipIdx 1).flatMap fun (c, j) => if j % 50 = 0 then [c, 10] else [c]

/-- `cat_initrd`, with the text that it prints. -/
def catInitrd (fuel hdrVar : ℕ) (s : FsHeap) (fname : List UInt8) :
    HeapM (List UInt8 × FsHeap) :=
  match finddirFs s.fs .root fname with
  | none => pure (contentsOf fname ++ noSuchFile, s)
  | some fsnode => do
      let (buf, s) ← malloc fuel s initrdBufferSize
      let (sz, fs) := readFsTo s.fs fsnode 0 initrdBufferSize buf
      let s := { s with fs }
      -- there is no `return` in this branch
      let s ← if sz = 0 then free fuel hdrVar s buf else pure s
      let text := (if sz = 0 then invalidEntry else []) ++ catLoop (s.fs.mem.bytes buf sz)
      let s ← free fuel hdrVar s buf
      pure (contentsOf fname ++ text, s)

/-! ### What the readers are for -/

/-- The pointers that the calls have allocated. -/
def mallocs (calls : List (HeapSys × HeapCall)) : List ℕ :=
  calls.filterMap fun c => match c.2 with
    | .malloc _ p => some p
    | .free _ => none

/-- The pointers that the calls have released. -/
def frees (calls : List (HeapSys × HeapCall)) : List ℕ :=
  calls.filterMap fun c => match c.2 with
    | .malloc _ _ => none
    | .free p => some p

/-- The contents of the file with this name: nothing, when there is none. -/
def fileOf (r : Initrd) (fname : List UInt8) : List UInt8 :=
  match finddirFs r .root fname with
  | none => []
  | some node => if (r.node node).read then r.contents (r.node node).inode else []

/-- `cat_initrd` ends, has released once what it has allocated, and leaves the live allocations
as they were. -/
def CatClean (fuel hdrVar : ℕ) (s : FsHeap) (fname : List UInt8) : Prop :=
  ∃ text s', (catInitrd fuel hdrVar s fname).run.val = some (text, s') ∧ s'.live = s.live ∧
    (frees (catInitrd fuel hdrVar s fname).run.log).Perm
      (mallocs (catInitrd fuel hdrVar s fname).run.log)

/-- `read_initrd` returns a null pointer and leaves the live allocations as they were, or it
returns a new one, which holds the bytes `f`. -/
def ReadClean (fuel hdrVar : ℕ) (s : FsHeap) (fname f : List UInt8) : Prop :=
  ∃ ret s', (readInitrd fuel hdrVar s fname).run.val = some (ret, s') ∧
    ((ret = 0 ∧ s'.live = s.live) ∨
      (ret ≠ 0 ∧ s'.live = (ret, f.length) :: s.live ∧ (∀ e ∈ s.live, e.1 ≠ ret) ∧
        s'.fs.mem.bytes ret f.length = f))

/-- `malloc` returns `p`, which is no null pointer. -/
def Serves (fuel : ℕ) (s : FsHeap) (sz p : ℕ) (s' : FsHeap) : Prop :=
  p ≠ 0 ∧ (malloc fuel s sz).run.val = some (p, s')

/-- The allocation of the buffer succeeds, if there is something with this name. -/
def BufferServed (fuel : ℕ) (s : FsHeap) (fname : List UInt8) : Prop :=
  ∀ node, finddirFs s.fs .root fname = some node →
    ∃ buf s₁, Serves fuel s initrdBufferSize buf s₁

/-- So does the allocation for what has been read into it. -/
def CopyServed (fuel : ℕ) (s : FsHeap) (fname : List UInt8) : Prop :=
  ∀ node buf s₁ sz fs, finddirFs s.fs .root fname = some node →
    Serves fuel s initrdBufferSize buf s₁ →
    readFsTo s₁.fs node 0 initrdBufferSize buf = (sz, fs) → sz ≠ 0 →
      ∃ ret s₂, Serves fuel { s₁ with fs } sz ret s₂

/-- The header of the node and its file lie in memory, outside the blocks of the heap. -/
structure OnImage (blocks : List (ℕ × ℕ)) (r : Initrd) (node : NodeRef) : Prop where
  header_le : r.header (r.node node).inode + 76 ≤ 4294967296
  fits : r.mem.read32 (r.header (r.node node).inode + 68) +
    r.mem.read32 (r.header (r.node node).inode + 72) ≤ 4294967296
  header : ∀ y, r.header (r.node node).inode ≤ y → y < r.header (r.node node).inode + 76 →
    ¬ InBlocks blocks y
  file : ∀ y, r.mem.read32 (r.header (r.node node).inode + 68) ≤ y →
    y < r.mem.read32 (r.header (r.node node).inode + 68) +
      r.mem.read32 (r.header (r.node node).inode + 72) → ¬ InBlocks blocks y

/-- The release of a pointer does not write into the blocks through what it takes for the
preceding header. -/
def CallOk (blocks : List (ℕ × ℕ)) (hdrVar : ℕ) (c : HeapSys × HeapCall) : Prop :=
  ∀ p, c.2 = .free p → FreeOk blocks c.1 (.free p hdrVar)

/-! ### Calls of `malloc` and `free` -/

section calls

variable {fuel hdrVar sz p : ℕ} {s s' : FsHeap} {st : HeapState} {blocks : List (ℕ × ℕ)}
  {bs : List Block}

theorem malloc_run (h : kHeapLCABAlloc fuel s.sys.st sz = some (p, st)) :
    (malloc fuel s sz).run =
      ⟨some (p, s.withSys ⟨st, if p = 0 then s.live else (p, sz) :: s.live⟩),
        [(s.sys, .malloc sz p)]⟩ := by
  unfold malloc
  rw [h]
  rfl

theorem free_run (h : kHeapLCABFree fuel s.sys.st hdrVar p = some st) :
    (free fuel hdrVar s p).run =
      ⟨some (s.withSys ⟨st, s.live.filter (fun e => e.1 ≠ p)⟩), [(s.sys, .free p)]⟩ := by
  unfold free
  rw [h]
  rfl

/-- A call of `free` is logged, whether or not it ends. -/
theorem free_log (fuel hdrVar : ℕ) (s : FsHeap) (p : ℕ) :
    (free fuel hdrVar s p).run.log = [(s.sys, .free p)] := by
  unfold free
  cases kHeapLCABFree fuel s.sys.st hdrVar p with
  | none => rfl
  | some st => rfl

/-- What `malloc` has done when it returns `p`. -/
structure Allocated (fuel : ℕ) (blocks : List (ℕ × ℕ)) (bs : List Block) (s : FsHeap) (sz p : ℕ)
    (s' : FsHeap) : Prop where
  run : (malloc fuel s sz).run = ⟨some (p, s'), [(s.sys, .malloc sz p)]⟩
  inv : SysInv blocks bs s'.sys
  live : s'.live = (p, sz) :: s.live
  fs : s'.fs = { s.fs with mem := s'.fs.mem }
  keeps : ∀ y, InLive s.live y ∨ ¬ InBlocks blocks y → s'.fs.mem y = s.fs.mem y

theorem Serves.allocated (h : Serves fuel s sz p s') (hinv : SysInv blocks bs s.sys) :
    ∃ bs', bs'.length = bs.length ∧ Allocated fuel blocks bs' s sz p s' := by
  obtain ⟨hp, hval⟩ := h
  cases halloc : kHeapLCABAlloc fuel s.sys.st sz with
  | none =>
      unfold malloc at hval
      rw [halloc] at hval
      cases hval
  | some r =>
      obtain ⟨q, st⟩ := r
      rw [malloc_run halloc] at hval
      obtain ⟨rfl, rfl⟩ : q = p ∧ s.withSys ⟨st, if q = 0 then s.live else (q, sz) :: s.live⟩ =
          s' := by simpa using hval
      have hkeeps : ∀ y, InLive s.live y ∨ ¬ InBlocks blocks y → st.mem y = s.fs.mem y :=
        fun y hy => alloc_keeps hinv halloc hy
      rcases alloc_sysInv hinv halloc with ⟨hp0, -⟩ |
        ⟨bs₁, b, bs₂, pre, c, post, u, rfl, -, -, -, -, -, h'⟩
      · exact absurd hp0 hp
      · refine ⟨bs₁ ++ { b with used := u, chunks := pre ++ (c.take sz ++ post) } :: bs₂, by simp,
          malloc_run halloc, ?_, if_neg hp, rfl, hkeeps⟩
        rw [if_neg hp]
        exact h'

/-- A release of a live pointer ends, and takes it out of the live allocations. -/
theorem free_live {pre post : List (ℕ × ℕ)} (h : SysInv blocks bs s.sys)
    (hlive : s.live = pre ++ (p, sz) :: post) (hsz : 0 < sz) (hfuel : bs.length < fuel)
    (hdrVar : ℕ) : ∃ st, kHeapLCABFree fuel s.sys.st hdrVar p = some st ∧
      (free fuel hdrVar s p).run = ⟨some (s.withSys ⟨st, pre ++ post⟩), [(s.sys, .free p)]⟩ := by
  have hmem : (p, sz) ∈ s.sys.live := by
    change (p, sz) ∈ s.live
    rw [hlive]
    exact List.mem_append_right _ List.mem_cons_self
  have hnodup := h.live.nodup
  change (s.live.map Prod.fst).Nodup at hnodup
  rw [hlive, List.map_append, List.map_cons, List.nodup_middle, List.nodup_cons, ← List.map_append]
    at hnodup
  obtain ⟨st, hst⟩ := h.free_ends hmem hsz hfuel hdrVar
  have hrest : s.live.filter (fun e => e.1 ≠ p) = pre ++ post := by
    rw [hlive, List.filter_append, List.filter_cons_of_neg (by simp), ← List.filter_append,
      List.filter_eq_self]
    intro e he
    have hne : e.1 ≠ p := by
      rintro rfl
      exact hnodup.1 (List.mem_map.mpr ⟨e, he, rfl⟩)
    simpa using hne
  refine ⟨st, hst, ?_⟩
  rw [free_run hst, hrest]

end calls

/-! ### The buffer -/

section buffer

variable {fuel hdrVar buf : ℕ} {s s₁ : FsHeap} {fname : List UInt8} {node : NodeRef}
  {blocks : List (ℕ × ℕ)} {bs : List Block}

/-- Bytes outside the blocks lie before a block or behind it. -/
theorem before_or_behind {b : ℕ × ℕ} {a n : ℕ} (hb : b ∈ blocks) (hpos : 0 < b.2) (hn : 0 < n)
    (h : ∀ y, a ≤ y → y < a + n → ¬ InBlocks blocks y) : a + n ≤ b.1 ∨ b.1 + b.2 ≤ a := by
  by_contra hnot
  push Not at hnot
  rcases Nat.le_total a b.1 with hle | hle
  · exact h b.1 hle (by omega) ⟨b, hb, by omega, by omega⟩
  · exact h a le_rfl (by omega) ⟨b, hb, by omega, by omega⟩

/-- An empty file is copied nowhere. -/
theorem readFsTo_empty {r : Initrd} (h : FileAt r node []) (buf : ℕ) :
    readFsTo r node 0 initrdBufferSize buf = (0, r) := by
  have hlen : r.mem.read32 (r.header (r.node node).inode + 72) = 0 := h.length_eq
  have hsize : (if 0 < w32 (0 + initrdBufferSize) then sub32 0 0 else initrdBufferSize) = 0 := by
    rw [w32_of_lt (by decide), if_pos (by decide)]
    exact sub32_of_le le_rfl (by decide)
  unfold readFsTo initrdReadTo
  rw [if_pos h.read]
  simp only [hlen, lt_irrefl, if_false, hsize, Nat.not_lt_zero]
  rfl

theorem OnImage.fileAt {r : Initrd} (h : OnImage blocks r node)
    (hread : (r.node node).read = true) : FileAt r node (r.contents (r.node node).inode) := by
  have hlen : (r.contents (r.node node).inode).length =
      r.mem.read32 (r.header (r.node node).inode + 72) := Mem.length_bytes _ _ _
  refine ⟨hread, h.header_le, hlen.symm, ?_, ?_⟩
  · rw [hlen]
    exact h.fits
  · rw [hlen]
    rfl

/-- The file stays where it is when nothing changes outside the blocks. -/
theorem OnImage.fileAt_of_keeps {r : Initrd} {m : Mem} (h : OnImage blocks r node)
    (hread : (r.node node).read = true) (hm : ∀ y, ¬ InBlocks blocks y → m y = r.mem y) :
    FileAt { r with mem := m } node (r.contents (r.node node).inode) ∧
      m.read32 (r.header (r.node node).inode + 68) =
        r.mem.read32 (r.header (r.node node).inode + 68) := by
  apply (h.fileAt hread).congr
  · intro y h1 h2
    exact hm y (h.header y h1 h2)
  · intro y h1 h2
    rw [Initrd.contents, Mem.length_bytes] at h2
    exact hm y (h.file y h1 h2)

/-- The buffer lies in a block, behind a header. -/
theorem Allocated.in_block {sz : ℕ} (h : Allocated fuel blocks bs s sz buf s₁) :
    ∃ b ∈ blocks, b.1 + 28 ≤ buf ∧ buf + sz ≤ b.1 + b.2 ∧ b.1 + b.2 < 4294967296 := by
  have hmem : (buf, sz) ∈ s₁.sys.live := by
    change (buf, sz) ∈ s₁.live
    rw [h.live]
    exact List.mem_cons_self
  obtain ⟨b, hb, x, c, hx, hex, -, hsz, hin⟩ := h.inv.live.chunk _ hmem
  have hlo := (placed_bounds Chunk.len hx).1
  have hfit := (h.inv.heap.blocks.mem b hb).fits
  simp only at hex hsz
  refine ⟨_, h.inv.among b hb, ?_, ?_, hfit⟩
  · simp only
    omega
  · simp only
    omega

/-- Reading from the start of the file into a new buffer: as much as the buffer takes. -/
theorem read_buffer (ha : Allocated fuel blocks bs s initrdBufferSize buf s₁)
    (hfound : finddirFs s.fs .root fname = some node)
    (himage : (s.fs.node node).read = true → OnImage blocks s.fs node) :
    readFsTo s₁.fs node 0 initrdBufferSize buf =
      (((fileOf s.fs fname).take initrdBufferSize).length,
        (s₁.withMem (s₁.fs.mem.load buf ((fileOf s.fs fname).take initrdBufferSize))).fs) := by
  have hnode : s₁.fs.node node = s.fs.node node := by
    rw [ha.fs]
    cases node with
    | root => rfl
    | mtp => rfl
    | file i => rfl
  have hnil : s₁.fs.mem.load buf [] = s₁.fs.mem := by
    funext y
    simp [Mem.load]
  unfold fileOf
  rw [hfound]
  simp only
  by_cases hread : (s.fs.node node).read = true
  · rw [if_pos hread]
    have h := himage hread
    obtain ⟨hfile, hoff⟩ := h.fileAt_of_keeps hread fun y hy => ha.keeps y (.inr hy)
    rw [← ha.fs] at hfile
    obtain ⟨f, hf⟩ : ∃ f, f = s.fs.contents (s.fs.node node).inode := ⟨_, rfl⟩
    rw [← hf] at hfile ⊢
    have hlen : f.length = s.fs.mem.read32 (s.fs.header (s.fs.node node).inode + 72) := by
      rw [hf, Initrd.contents, Mem.length_bytes]
    rcases Nat.eq_zero_or_pos f.length with hzero | hpos
    · rw [List.eq_nil_of_length_eq_zero hzero] at hfile ⊢
      rw [readFsTo_empty hfile, List.take_nil, hnil]
      rfl
    · obtain ⟨b, hb, hlo, hhi, hfit⟩ := ha.in_block
      have hfit' := h.fits
      rw [initrdBufferSize] at hhi
      have hheader := before_or_behind hb (by omega) (by decide) h.header
      have hbytes := before_or_behind hb (by omega) (by omega) h.file
      have hhead : s₁.fs.header (s₁.fs.node node).inode = s.fs.header (s.fs.node node).inode := by
        rw [hnode, ha.fs]
        rfl
      have hvalid : ReadCall.Valid ⟨initrdBufferSize, buf⟩ s₁.fs node f := by
        refine ⟨Nat.succ_le_of_lt (by decide : 0 < initrdBufferSize), le_rfl, ?_, ?_, ?_⟩
        · simp only [initrdBufferSize]
          omega
        · rw [hhead]
          simp only [Disjoint32, initrdBufferSize]
          omega
        · rw [hhead, hoff]
          simp only [Disjoint32, initrdBufferSize]
          omega
      have hspec := readFsTo_spec hfile (by simp only [initrdBufferSize]; omega) (Nat.zero_le _)
        hvalid
      have htake : f.take (min initrdBufferSize f.length) = f.take initrdBufferSize := by
        rw [List.take_eq_take_iff]
        omega
      rw [hspec, List.drop_zero, Nat.sub_zero, htake, List.length_take]
      rfl
  · rw [if_neg hread]
    unfold readFsTo
    rw [hnode, if_neg hread, List.take_nil, hnil]
    rfl

/-- The heap is as it was when something has been written into the buffer. -/
theorem Allocated.withMem_inv {sz : ℕ} {m : Mem} (h : Allocated fuel blocks bs s sz buf s₁)
    (hm : ∀ y, ¬ (buf ≤ y ∧ y < buf + sz) → m y = s₁.fs.mem y) :
    SysInv blocks bs (s₁.withMem m).sys := by
  refine write_sysInv h.inv fun y _ hy => hm y fun hin => hy ⟨(buf, sz), ?_, hin⟩
  change (buf, sz) ∈ s₁.live
  rw [h.live]
  exact List.mem_cons_self

/-- The state when `g` has been read into the buffer. -/
structure Buffered (blocks : List (ℕ × ℕ)) (bs : List Block) (s s₁ : FsHeap) (node : NodeRef)
    (buf : ℕ) (g : List UInt8) (s₂ : FsHeap) : Prop where
  read : readFsTo s₁.fs node 0 initrdBufferSize buf = (g.length, s₂.fs)
  state : (⟨s₂.fs, s₁.heap, s₁.live⟩ : FsHeap) = s₂
  inv : SysInv blocks bs s₂.sys
  live : s₂.live = (buf, initrdBufferSize) :: s.live
  bytes : s₂.fs.mem.bytes buf g.length = g

theorem Allocated.buffered (ha : Allocated fuel blocks bs s initrdBufferSize buf s₁)
    (hfound : finddirFs s.fs .root fname = some node)
    (himage : (s.fs.node node).read = true → OnImage blocks s.fs node) :
    ∃ s₂, Buffered blocks bs s s₁ node buf ((fileOf s.fs fname).take initrdBufferSize) s₂ := by
  have hread := read_buffer ha hfound himage
  obtain ⟨g, hg⟩ : ∃ g, g = (fileOf s.fs fname).take initrdBufferSize := ⟨_, rfl⟩
  rw [← hg] at hread ⊢
  have hle : g.length ≤ initrdBufferSize := by
    rw [hg]
    exact List.length_take_le _ _
  obtain ⟨b, hb, hlo, hhi, hfit⟩ := ha.in_block
  refine ⟨_, hread, rfl, ha.withMem_inv fun y hy => ?_, ha.live, ?_⟩
  · exact Mem.load_outside _ (by omega) (by omega)
  · exact Mem.bytes_load _ (by omega)

/-- The release of the buffer leaves the allocations that were live before. -/
theorem Buffered.free_buffer {s₂ : FsHeap} {g : List UInt8}
    (hb : Buffered blocks bs s s₁ node buf g s₂) (hfuel : bs.length < fuel) (hdrVar : ℕ) :
    ∃ st, kHeapLCABFree fuel s₂.sys.st hdrVar buf = some st ∧
      (free fuel hdrVar s₂ buf).run = ⟨some (s₂.withSys ⟨st, s.live⟩), [(s₂.sys, .free buf)]⟩ := by
  have hlive : s₂.live = [] ++ (buf, initrdBufferSize) :: s.live := hb.live
  exact free_live hb.inv hlive (by decide) hfuel hdrVar

end buffer

/-! ### `cat_initrd` -/

section cat

variable {fuel hdrVar buf : ℕ} {s s₁ s₂ : FsHeap} {fname g : List UInt8} {node : NodeRef}
  {blocks : List (ℕ × ℕ)} {bs : List Block}

theorem catClean_of_missing (h : finddirFs s.fs .root fname = none) :
    CatClean fuel hdrVar s fname := by
  have hrun : (catInitrd fuel hdrVar s fname).run =
      ⟨some (contentsOf fname ++ noSuchFile, s), []⟩ := by
    unfold catInitrd
    rw [h]
    rfl
  refine ⟨_, s, by rw [hrun], rfl, ?_⟩
  rw [hrun]
  exact .refl _

/-- When nothing is read, the buffer is released twice. -/
theorem catInitrd_empty_log (ha : Allocated fuel blocks bs s initrdBufferSize buf s₁)
    (hb : Buffered blocks bs s s₁ node buf [] s₂) (hfuel : bs.length < fuel)
    (hfound : finddirFs s.fs .root fname = some node) (hdrVar : ℕ) :
    ∃ x y z, (catInitrd fuel hdrVar s fname).run.log =
      [(x, .malloc initrdBufferSize buf), (y, .free buf), (z, .free buf)] := by
  obtain ⟨st, -, hfree⟩ := hb.free_buffer hfuel hdrVar
  unfold catInitrd
  rw [hfound]
  simp only
  rw [run_bind_some ha.run]
  simp only [hb.read, List.length_nil, if_true, hb.state]
  rw [run_bind_some hfree]
  simp only [run_bind_pure_log, free_log]
  exact ⟨_, _, _, rfl⟩

/-- When something is read, it is released once. -/
theorem catInitrd_run (ha : Allocated fuel blocks bs s initrdBufferSize buf s₁)
    (hb : Buffered blocks bs s s₁ node buf g s₂) (hfuel : bs.length < fuel)
    (hfound : finddirFs s.fs .root fname = some node) (hg : g.length ≠ 0) (hdrVar : ℕ) :
    ∃ text s' x y, s'.live = s.live ∧ (catInitrd fuel hdrVar s fname).run =
      ⟨some (text, s'), [(x, .malloc initrdBufferSize buf), (y, .free buf)]⟩ := by
  obtain ⟨st, -, hfree⟩ := hb.free_buffer hfuel hdrVar
  have hpure : (pure s₂ : HeapM FsHeap).run = ⟨some s₂, []⟩ := rfl
  unfold catInitrd
  rw [hfound]
  simp only
  rw [run_bind_some ha.run]
  simp only [hb.read, hg, if_false, hb.state]
  rw [run_bind_some hpure, run_bind_some hfree]
  exact ⟨_, s₂.withSys ⟨st, s.live⟩, _, _, rfl, rfl⟩

theorem catClean_iff (ha : Allocated fuel blocks bs s initrdBufferSize buf s₁)
    (hb : Buffered blocks bs s s₁ node buf g s₂) (hfuel : bs.length < fuel)
    (hfound : finddirFs s.fs .root fname = some node) :
    CatClean fuel hdrVar s fname ↔ g ≠ [] := by
  constructor
  · rintro ⟨text, s', -, -, hperm⟩ rfl
    obtain ⟨x, y, z, hlog⟩ := catInitrd_empty_log ha hb hfuel hfound hdrVar
    rw [hlog] at hperm
    exact absurd hperm.length_eq (by simp [frees, mallocs])
  · intro hne
    have hpos := List.length_pos_iff.mpr hne
    obtain ⟨text, s', x, y, hlive, hrun⟩ := catInitrd_run ha hb hfuel hfound hpos.ne' hdrVar
    refine ⟨text, s', by rw [hrun], hlive, ?_⟩
    rw [hrun]
    exact .refl _

end cat

/-! ### `read_initrd` -/

section read

variable {fuel hdrVar buf : ℕ} {s s₁ s₂ : FsHeap} {fname g : List UInt8} {node : NodeRef}
  {blocks : List (ℕ × ℕ)} {bs : List Block}

theorem readClean_of_missing (h : finddirFs s.fs .root fname = none) (fuel hdrVar : ℕ)
    (f : List UInt8) : ReadClean fuel hdrVar s fname f := by
  refine ⟨0, s, ?_, .inl ⟨rfl, rfl⟩⟩
  unfold readInitrd
  rw [h]
  rfl

/-- When nothing is read, a null pointer is returned. -/
theorem readClean_of_empty (ha : Allocated fuel blocks bs s initrdBufferSize buf s₁)
    (hb : Buffered blocks bs s s₁ node buf [] s₂) (hfuel : bs.length < fuel)
    (hfound : finddirFs s.fs .root fname = some node) (hdrVar : ℕ) (f : List UInt8) :
    ReadClean fuel hdrVar s fname f := by
  obtain ⟨st, -, hfree⟩ := hb.free_buffer hfuel hdrVar
  refine ⟨0, s₂.withSys ⟨st, s.live⟩, ?_, .inl ⟨rfl, rfl⟩⟩
  unfold readInitrd
  rw [hfound]
  simp only
  rw [run_bind_some ha.run]
  simp only [hb.read, List.length_nil, if_true, hb.state]
  rw [run_bind_some hfree]
  rfl

/-- The copy of the buffer. -/
theorem memmove_buffer {ret : ℕ} {s₃ : FsHeap} {bs' : List Block}
    (ha : Allocated fuel blocks bs s initrdBufferSize buf s₁)
    (hb : Buffered blocks bs s s₁ node buf g s₂) (hn : g.length ≤ initrdBufferSize)
    (hc : Allocated fuel blocks bs' s₂ g.length ret s₃) :
    SysInv blocks bs' (s₃.withMem (s₃.fs.mem.memmove ret buf g.length)).sys ∧
      (s₃.fs.mem.memmove ret buf g.length).bytes ret g.length = g := by
  obtain ⟨b, -, hlo, hhi, hfit⟩ := ha.in_block
  obtain ⟨d, -, hlo', hhi', hfit'⟩ := hc.in_block
  have hdst : ret + g.length ≤ 4294967296 := by omega
  have hsrc : buf + g.length ≤ 4294967296 := by omega
  constructor
  · apply hc.withMem_inv
    intro y hy
    rw [Mem.memmove_apply hdst hsrc, if_neg hy]
  · rw [Mem.bytes_memmove hdst hsrc]
    refine Eq.trans ?_ hb.bytes
    apply Mem.bytes_congr
    intro i hi
    -- the buffer is live when the copy is allocated
    rw [w32_of_lt (by omega)]
    refine hc.keeps _ (.inl ⟨(buf, initrdBufferSize), ?_, by simp only; omega, by simp only; omega⟩)
    rw [hb.live]
    exact List.mem_cons_self

/-- The calls that are made when something is read. -/
theorem readInitrd_run {ret : ℕ} {s₃ s₄ s₅ : FsHeap} {bs' : List Block}
    (ha : Allocated fuel blocks bs s initrdBufferSize buf s₁)
    (hb : Buffered blocks bs s s₁ node buf g s₂)
    (hfound : finddirFs s.fs .root fname = some node) (hg : g.length ≠ 0)
    (hc : Allocated fuel blocks bs' s₂ g.length ret s₃)
    (hs₄ : s₄ = s₃.withMem (s₃.fs.mem.memmove ret buf g.length))
    (hfree : (free fuel hdrVar s₄ buf).run = ⟨some s₅, [(s₄.sys, .free buf)]⟩) :
    (readInitrd fuel hdrVar s fname).run = ⟨some (ret, s₅),
      [(s.sys, .malloc initrdBufferSize buf), (s₂.sys, .malloc g.length ret),
        (s₄.sys, .free buf)]⟩ := by
  unfold readInitrd
  rw [hfound]
  simp only
  rw [run_bind_some ha.run]
  simp only [hb.read, hg, if_false, hb.state]
  rw [run_bind_some hc.run]
  simp only [← hs₄]
  rw [run_bind_some hfree]
  rfl

/-- What is read is returned in an allocation of its own. -/
theorem readInitrd_copy (ha : Allocated fuel blocks bs s initrdBufferSize buf s₁)
    (hb : Buffered blocks bs s s₁ node buf g s₂) (hfuel : bs.length < fuel)
    (hfound : finddirFs s.fs .root fname = some node) (hg : g.length ≠ 0)
    (hle : g.length ≤ initrdBufferSize) (hcopy : ∃ ret s₃, Serves fuel s₂ g.length ret s₃)
    (hok : ∀ c ∈ (readInitrd fuel hdrVar s fname).run.log, CallOk blocks hdrVar c) :
    ∃ ret s', (readInitrd fuel hdrVar s fname).run.val = some (ret, s') ∧ ret ≠ 0 ∧
      s'.live = (ret, g.length) :: s.live ∧ (∀ e ∈ s.live, e.1 ≠ ret) ∧
      s'.fs.mem.bytes ret g.length = g := by
  obtain ⟨ret, s₃, hserves⟩ := hcopy
  obtain ⟨bs', hlen, hc⟩ := hserves.allocated hb.inv
  have hfuel' : bs'.length < fuel := by omega
  obtain ⟨hinv, hbytes⟩ := memmove_buffer ha hb hle hc
  obtain ⟨s₄, hs₄⟩ : ∃ s₄, s₄ = s₃.withMem (s₃.fs.mem.memmove ret buf g.length) := ⟨_, rfl⟩
  have hmem : s₄.fs.mem = s₃.fs.mem.memmove ret buf g.length := by rw [hs₄, FsHeap.withMem]
  have hlive : s₄.live = [(ret, g.length)] ++ (buf, initrdBufferSize) :: s.live := by
    rw [hs₄, FsHeap.withMem, hc.live, hb.live, List.singleton_append]
  rw [← hs₄] at hinv
  rw [← hmem] at hbytes
  obtain ⟨st, hst, hfree⟩ := free_live hinv hlive (by decide) hfuel' hdrVar
  have hrun := readInitrd_run ha hb hfound hg hc hs₄ hfree
  rw [hrun] at hok
  have hfreeOk : FreeOk blocks s₄.sys (.free buf hdrVar) :=
    hok (s₄.sys, .free buf) (by simp) buf rfl
  have hin : ∀ e ∈ s₄.live, e ∈ s₄.sys.live := fun e he => he
  refine ⟨ret, _, by rw [hrun], hserves.1, rfl, ?_, ?_⟩
  · -- the pointer is not among those that are live already
    have hnodup := hc.inv.live.nodup
    change (s₃.live.map Prod.fst).Nodup at hnodup
    rw [hc.live, hb.live, List.map_cons, List.nodup_cons] at hnodup
    intro e he heq
    exact hnodup.1 (List.mem_map.mpr ⟨e, List.mem_cons_of_mem _ he, heq⟩)
  · -- the release leaves the copy alone
    refine Eq.trans ?_ hbytes
    obtain ⟨d, -, -, hhi, hfit⟩ := hc.in_block
    have hbuf := hin (buf, initrdBufferSize) (by simp [hlive])
    have hret := hin (ret, g.length) (by simp [hlive])
    apply Mem.bytes_congr
    intro i hi
    rw [w32_of_lt (by omega)]
    exact free_keeps hinv hbuf hfreeOk hst ⟨_, hret, by simp only; omega, by simp only; omega⟩

/-- A copy holds the whole file exactly if the file fits the buffer. -/
theorem readClean_iff {f : List UInt8} (ha : Allocated fuel blocks bs s initrdBufferSize buf s₁)
    (hb : Buffered blocks bs s s₁ node buf (f.take initrdBufferSize) s₂) (hfuel : bs.length < fuel)
    (hfound : finddirFs s.fs .root fname = some node)
    (hcopy : (f.take initrdBufferSize).length ≠ 0 →
      ∃ ret s₃, Serves fuel s₂ (f.take initrdBufferSize).length ret s₃)
    (hok : ∀ c ∈ (readInitrd fuel hdrVar s fname).run.log, CallOk blocks hdrVar c) :
    (ReadClean fuel hdrVar s fname f ↔ f.length ≤ initrdBufferSize) ∧
      ReadClean fuel hdrVar s fname (f.take initrdBufferSize) := by
  rcases Nat.eq_zero_or_pos (f.take initrdBufferSize).length with hzero | hpos
  · have hempty := List.eq_nil_of_length_eq_zero hzero
    have hf : f.length ≤ initrdBufferSize := by
      rw [List.length_take, initrdBufferSize] at hzero
      rw [initrdBufferSize]
      omega
    rw [hempty] at hb ⊢
    have hclean := readClean_of_empty ha hb hfuel hfound hdrVar
    exact ⟨iff_of_true (hclean f) hf, hclean []⟩
  · obtain ⟨ret, s', hval, hret, hlive, hnew, hbytes⟩ := readInitrd_copy ha hb hfuel hfound
      hpos.ne' (List.length_take_le _ _) (hcopy hpos.ne') hok
    have hclean : ReadClean fuel hdrVar s fname (f.take initrdBufferSize) :=
      ⟨ret, s', hval, .inr ⟨hret, hlive, hnew, hbytes⟩⟩
    refine ⟨⟨?_, fun hle => ?_⟩, hclean⟩
    · rintro ⟨ret', s'', hval', h⟩
      obtain ⟨rfl, rfl⟩ : ret = ret' ∧ s' = s'' := by
        rw [hval] at hval'
        simpa using hval'
      rcases h with ⟨h, -⟩ | ⟨-, h, -⟩
      · exact absurd h hret
      · -- the size of the new allocation
        rw [hlive] at h
        simp only [List.cons.injEq, Prod.mk.injEq, true_and, and_true, List.length_take] at h
        omega
    · rwa [List.take_of_length_le hle] at hclean

end read

/-- On any ramdisk that lies outside the heap, and in every state of the heap in which the
allocations succeed, `cat_initrd` releases its buffer once exactly if there is no such file or the
file is not empty, and `read_initrd` returns the file, or a null pointer for none, exactly if the
file fits the buffer; otherwise it returns what fits. -/
theorem readers_iff {fuel hdrVar : ℕ} {s : FsHeap} {fname : List UInt8} {blocks : List (ℕ × ℕ)}
    {bs : List Block} (hinv : SysInv blocks bs s.sys) (hfuel : bs.length < fuel)
    (himage : ∀ node, finddirFs s.fs .root fname = some node → (s.fs.node node).read = true →
      OnImage blocks s.fs node)
    (hbuffer : BufferServed fuel s fname) :
    (CatClean fuel hdrVar s fname ↔
        finddirFs s.fs .root fname = none ∨ fileOf s.fs fname ≠ []) ∧
      (CopyServed fuel s fname →
        (∀ c ∈ (readInitrd fuel hdrVar s fname).run.log, CallOk blocks hdrVar c) →
          (ReadClean fuel hdrVar s fname (fileOf s.fs fname) ↔
              (fileOf s.fs fname).length ≤ initrdBufferSize) ∧
            ReadClean fuel hdrVar s fname ((fileOf s.fs fname).take initrdBufferSize)) := by
  cases hfound : finddirFs s.fs .root fname with
  | none =>
      have hnil : fileOf s.fs fname = [] := by
        unfold fileOf
        rw [hfound]
      have hread := readClean_of_missing hfound fuel hdrVar
      refine ⟨iff_of_true (catClean_of_missing hfound) (.inl rfl), fun _ _ => ⟨?_, hread _⟩⟩
      rw [hnil]
      exact iff_of_true (hread []) (Nat.zero_le _)
  | some node =>
      obtain ⟨buf, s₁, hserves⟩ := hbuffer node hfound
      obtain ⟨bs', hlen, ha⟩ := hserves.allocated hinv
      obtain ⟨s₂, hb⟩ := ha.buffered hfound (himage node hfound)
      have hfuel' : bs'.length < fuel := by omega
      refine ⟨?_, fun hcopy hok => readClean_iff ha hb hfuel' hfound (fun hne => ?_) hok⟩
      · rw [catClean_iff ha hb hfuel' hfound, or_iff_right (by simp)]
        simp [initrdBufferSize]
      · have h := hcopy node buf s₁ _ _ hfound hserves hb.read hne
        rwa [hb.state] at h

/-- A ramdisk with one file, which has an empty name, and a heap of one block of 1028 KiB. -/
def fileHeap (file : List UInt8) : FsHeap :=
  let m := Mem.load (fun _ => 0) 4168 ([80, 16, 0, 0, UInt8.ofNat file.length, 0, 0, 0] ++ file)
  let h := makeHeap m ⟨0, 0, 0, 0⟩ [(8192, 1052672)]
  { fs := { mem := h.st.mem
            fileHeaders := 4100
            rootNodes := [⟨[], 0, 0, 0, fsFile, 0, file.length, 0, true, false, false⟩]
            nrootNodes := 1 }
    heap := h.st.heap
    live := [] }

theorem fileHeap_inv {file : List UInt8} (h : file.length ≤ 100) :
    ∃ b, SysInv [(8192, 1052672)] [b] (fileHeap file).sys := by
  have h0 : HeapInv ⟨Mem.load (fun _ => 0) 4168
      ([80, 16, 0, 0, UInt8.ofNat file.length, 0, 0, 0] ++ file), kHeapLCABInit ⟨0, 0, 0, 0⟩⟩ [] :=
    ⟨rfl, .nil⟩
  have hlen : ([80, 16, 0, 0, UInt8.ofNat file.length, 0, 0, 0] ++ file).length ≤ 108 := by
    rw [List.length_append]
    simp only [List.length_cons, List.length_nil]
    omega
  have htail := tailTiled_of_zero (m := Mem.load (fun _ => 0) 4168
      ([80, 16, 0, 0, UInt8.ofNat file.length, 0, 0, 0] ++ file)) (by decide : 24 ≤ 1052672)
    (by decide : 8192 + 1052672 < 4294967296) fun y h1 _ => by
      rw [Mem.load_outside _ (by omega) (by omega)]
  exact ⟨_, addBlock_heapInv h0 (by decide) (by decide) (by decide) (by decide) htail (by simp),
    by simp [freshBlock], by simp [fileHeap, makeHeap, FsHeap.sys], by simp [fileHeap, FsHeap.sys]⟩

/-- The allocation of the buffer succeeds. -/
theorem fileHeap_served {file : List UInt8}
    (h : (kHeapLCABAlloc 4 (fileHeap file).sys.st initrdBufferSize).map Prod.fst = some 8220) :
    BufferServed 4 (fileHeap file) [] := by
  obtain ⟨⟨p, st⟩, halloc, hp⟩ := Option.map_eq_some_iff.mp h
  have hpos : p ≠ 0 := by
    rw [show p = 8220 from hp]
    decide
  intro _ _
  exact ⟨p, _, hpos, by rw [malloc_run halloc]⟩

/-- The theorem for a file of three bytes. -/
theorem readers_iff_three : CatClean 4 0 (fileHeap [97, 98, 99]) [] ∧
    ReadClean 4 0 (fileHeap [97, 98, 99]) [] [97, 98, 99] := by
  obtain ⟨s, hs⟩ : ∃ s, s = fileHeap [97, 98, 99] := ⟨_, rfl⟩
  obtain ⟨b, hinv⟩ : ∃ b, SysInv [(8192, 1052672)] [b] s.sys := hs ▸ fileHeap_inv (by decide)
  have hfound : finddirFs s.fs .root [] = some (.file 0) := hs ▸ by decide +kernel
  have hoffset : s.fs.mem.read32 4168 = 4176 := hs ▸ by decide +kernel
  have hlength : s.fs.mem.read32 4172 = 3 := hs ▸ by decide +kernel
  have hheader : s.fs.header (s.fs.node (.file 0)).inode = 4100 := hs ▸ by decide +kernel
  have hfile : fileOf s.fs [] = [97, 98, 99] := hs ▸ by decide +kernel
  have hfirst : (kHeapLCABAlloc 4 s.sys.st initrdBufferSize).map Prod.fst = some 8220 :=
    hs ▸ by decide +kernel
  have hbuffer : BufferServed 4 s [] := hs ▸ fileHeap_served (hs ▸ hfirst)
  have himage : ∀ node, finddirFs s.fs .root [] = some node → (s.fs.node node).read = true →
      OnImage [(8192, 1052672)] s.fs node := by
    intro node hnode _
    rw [hfound] at hnode
    cases hnode
    refine ⟨?_, ?_, ?_, ?_⟩
    · rw [hheader]
      decide
    · rw [hheader, hoffset, hlength]
      decide
    · rw [hheader]
      rintro y - hy ⟨b, hb, hlo, -⟩
      rw [List.mem_singleton.mp hb] at hlo
      omega
    · rw [hheader, hoffset, hlength]
      rintro y - hy ⟨b, hb, hlo, -⟩
      rw [List.mem_singleton.mp hb] at hlo
      omega
  have hsecond : ((kHeapLCABAlloc 4 s.sys.st initrdBufferSize).bind fun q =>
      let s₁ := s.withSys ⟨q.2, (q.1, initrdBufferSize) :: s.live⟩
      let r := readFsTo s₁.fs (.file 0) 0 initrdBufferSize q.1
      (kHeapLCABAlloc 4 ({ s₁ with fs := r.2 } : FsHeap).sys.st r.1).map Prod.fst) =
        some 1056804 := hs ▸ by decide +kernel
  have hcopy : CopyServed 4 s [] := by
    intro node buf s₁ sz fs hnode hserves hread _
    rw [hfound] at hnode
    cases hnode
    obtain ⟨⟨p, st⟩, halloc, hp⟩ := Option.map_eq_some_iff.mp hfirst
    obtain ⟨hbuf, hval⟩ := hserves
    rw [malloc_run halloc] at hval
    obtain ⟨rfl, rfl⟩ : p = buf ∧ s.withSys ⟨st, if p = 0 then s.live else
        (p, initrdBufferSize) :: s.live⟩ = s₁ := by simpa using hval
    rw [if_neg hbuf] at hread ⊢
    rw [halloc, Option.bind_some] at hsecond
    simp only [hread] at hsecond
    obtain ⟨⟨ret, st'⟩, halloc', hret⟩ := Option.map_eq_some_iff.mp hsecond
    have hpos : ret ≠ 0 := by
      rw [show ret = 1056804 from hret]
      decide
    exact ⟨ret, _, hpos, by rw [malloc_run halloc']⟩
  -- the chunk of the buffer is the first one, and has no tag
  have htag : (readInitrd 4 0 s []).run.log.all (fun c => match c.2 with
      | .malloc _ _ => true
      | .free p => decide (freePhdr (freeClear (freeUnflag c.1.st (sub32 p 8)) 8192
          (sub32 p 8)).mem (sub32 p 8) 0 = 0)) = true := hs ▸ by decide +kernel
  have hok : ∀ c ∈ (readInitrd 4 0 s []).run.log, CallOk [(8192, 1052672)] 0 c := by
    intro c hc p hp d hd _ _
    have h := List.all_eq_true.mp htag c hc
    rw [hp] at h
    rw [List.mem_singleton.mp hd]
    intro hne
    exact absurd (of_decide_eq_true h) hne
  obtain ⟨hcat, hread⟩ := readers_iff hinv (by decide : 1 < 4) himage hbuffer
  rw [hfile] at hcat hread
  rw [← hs]
  exact ⟨hcat.mpr (.inr (by decide)), (hread hcopy hok).1.mpr (by decide)⟩

/-- An empty file: the buffer is released twice. -/
theorem catInitrd_twice : (∃ b, SysInv [(8192, 1052672)] [b] (fileHeap []).sys) ∧
    BufferServed 4 (fileHeap []) [] ∧ ¬ CatClean 4 0 (fileHeap []) [] := by
  refine ⟨fileHeap_inv (by decide), fileHeap_served (by decide +kernel), ?_⟩
  rintro ⟨-, -, -, -, hperm⟩
  have hfrees : (frees (catInitrd 4 0 (fileHeap []) []).run.log).length = 2 := by decide +kernel
  have hmallocs : (mallocs (catInitrd 4 0 (fileHeap []) []).run.log).length = 1 := by
    decide +kernel
  have := hperm.length_eq
  omega

end Owmice.Vfs
