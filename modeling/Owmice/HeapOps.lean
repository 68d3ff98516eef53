import Owmice.HeapChain

/-! # Allocation and release on the abstract heap

What `allocTake` and the phases of `k_heapLCABFree` do to memory, said as operations on lists
of chunks: `Chunk.take` splits or marks a chunk, `Chunk.coalesce` lets a freed chunk swallow a
free successor.

The merge with the preceding chunk starts from the address of a local variable, so it is no
operation on the chunks at all; `BackwardMisses K` says that it is not taken, or that the
words it writes avoid the bytes `K`.

* `allocTake_blockAt`, `freeIn_blockAt`: one block;
* `HeapInv`, `alloc_heapInv`, `free_heapInv`: the whole heap. -/

namespace Owmice.Heap

open Tiling

/-! ### Taking a chunk -/

/-- What becomes of a free chunk that serves `size` bytes. -/
def Chunk.take (c : Chunk) (size : ℕ) : List Chunk :=
  if size + 24 < c.size then
    [⟨c.prev, size, true⟩, ⟨size, c.size - (size + 8), false⟩]
  else [{ c with used := true }]

/-- What the counters are charged for `size` bytes out of the chunk `c`. -/
def Chunk.charge (c : Chunk) (size : ℕ) : ℕ := if size + 24 < c.size then size + 8 else size

theorem Chunk.stop_take (c : Chunk) (size x : ℕ) :
    stop Chunk.len x (c.take size) = x + c.len := by
  unfold Chunk.take
  split
  · simp only [stop_cons, stop_nil, Chunk.len]
    omega
  · rfl

theorem or_used_bit {n : ℕ} (h : n < 2147483648) : n ||| 2147483648 = n + 2147483648 := by
  have h' : 2 ^ 31 * 1 + n = 2 ^ 31 * 1 ||| n := Nat.two_pow_add_eq_or_of_lt h 1
  rw [Nat.or_comm]
  norm_num at h'
  omega

theorem allocTake_fblock (s : HeapState) (hb hdr size : ℕ) :
    (allocTake s hb hdr size).heap.fblock = s.heap.fblock := by
  simp only [allocTake]
  split <;> simp

/-- The header of a chunk in the middle of a block. -/
theorem hdrAt_split {m : Mem} {b : Block} {c : Chunk} {x : ℕ} (h : BlockAt m b)
    {pre post : List Chunk} (hb : b.chunks = pre ++ c :: post)
    (hx : x = stop Chunk.len (b.addr + 20) pre) : HdrAt m (b.addr + b.size) x c ∧ b.addr + 20 ≤ x :=
  ⟨h.hdrs (x, c) (Block.mem_headers hb hx), hx ▸ le_stop Chunk.len _ pre⟩

/-- The header behind it. -/
theorem hdrAt_next {m : Mem} {b : Block} {c d : Chunk} {x : ℕ} (h : BlockAt m b)
    {pre post : List Chunk} (hb : b.chunks = pre ++ c :: d :: post)
    (hx : x = stop Chunk.len (b.addr + 20) pre) : HdrAt m (b.addr + b.size) (x + c.len) d := by
  have hb' : b.chunks = (pre ++ [c]) ++ d :: post := by simpa using hb
  refine (hdrAt_split h hb' ?_).1
  simp [stop_append, hx]

/-- The bytes of a header are metadata of the block. -/
theorem meta_split {b : Block} {pre post : List Chunk} {c : Chunk} {x y : ℕ}
    (hb : b.chunks = pre ++ c :: post) (hx : x = stop Chunk.len (b.addr + 20) pre) (h1 : x ≤ y)
    (h2 : y < x + 8) : b.Meta y :=
  .inr ⟨(x, c), Block.mem_headers hb hx, h1, h2⟩

section take

variable {s : HeapState} {b : Block} {pre post : List Chunk} {c : Chunk} {hb lim x size : ℕ}

/-- Taking the chunk at `x` writes the block's counter and bytes of that chunk. -/
theorem allocTake_only (hc : HdrAt s.mem lim x c) (hlim : lim < 4294967296) (hlo : hb + 20 ≤ x)
    (hfree : c.used = false) (hfit : size ≤ c.size) :
    Mem.Only (fun y => (hb + 4 ≤ y ∧ y < hb + 8) ∨ (x ≤ y ∧ y < x + c.len))
      s.mem (allocTake s hb x size).mem := by
  have hpay := hc.payload hfree
  have hword : ∀ a, (a = hb + 4 ∨ (x ≤ a ∧ a + 4 ≤ x + c.len)) → ∀ y, InWord a y →
      (hb + 4 ≤ y ∧ y < hb + 8) ∨ (x ≤ y ∧ y < x + c.len) := by
    intro a ha y hy
    rw [Chunk.len] at *
    have := hy.le_lt (by omega)
    omega
  unfold allocTake
  rw [hc.chunkSize]
  have hsz := hc.size_lt
  by_cases hs : w32 (size + 8 + 16) < c.size
  · rw [w32_of_lt (by omega)] at hs
    have hrest : w32 (x + 8 + size) = x + 8 + size := w32_of_lt (by omega)
    simp only [w32_of_lt (show size + 8 + 16 < 4294967296 by omega), hs, if_true, hrest,
      HeapState.addUsed_mem, HeapState.setFlagsize_mem, HeapState.setPrevsize_mem]
    refine ((((Mem.Only.refl _ _).write32 _ (hword _ ?_)).write32 _ (hword _ ?_)).write32 _
      (hword _ ?_)).write32 _ (hword _ ?_) |>.write32 _ (hword _ ?_)
    all_goals rw [Chunk.len]
    all_goals omega
  · simp only [hs, if_false, HeapState.addUsed_mem, HeapState.setFlagsize_mem]
    refine ((Mem.Only.refl _ _).write32 _ (hword _ ?_)).write32 _ (hword _ ?_)
    all_goals rw [Chunk.len]
    all_goals omega

/-- The headers that taking a chunk leaves in its place are those of `Chunk.take`. -/
theorem allocTake_hdrs (hc : HdrAt s.mem lim x c) (hlim : lim < 4294967296) (hlo : hb + 20 ≤ x)
    (hfree : c.used = false) (hfit : size ≤ c.size) :
    ∀ p ∈ placed Chunk.len x (c.take size), HdrAt (allocTake s hb x size).mem lim p.1 p.2 := by
  have hpay := hc.payload hfree
  have hsz := hc.size_lt
  have hprev := hc.prev
  have hflag := hc.flag
  simp only [prevsize, flagsize, Chunk.flagsize, hfree] at hprev hflag
  unfold allocTake Chunk.take
  rw [hc.chunkSize, w32_of_lt (show size + 8 + 16 < 4294967296 by omega)]
  by_cases hs : size + 24 < c.size
  · have hrest : w32 (x + 8 + size) = x + 8 + size := w32_of_lt (by omega)
    have hsub : sub32 c.size (w32 (size + 8)) = c.size - (size + 8) := by
      rw [w32_of_lt (by omega), sub32_of_le (by omega) (by omega)]
    have hor : 2147483648 ||| size = size + 2147483648 := by
      rw [Nat.or_comm]; exact or_used_bit (by omega)
    simp only [show size + 8 + 16 < c.size from hs, if_true, hrest, hsub, hor,
      HeapState.addUsed_mem, HeapState.setFlagsize_mem, HeapState.setPrevsize_mem, placed_cons,
      placed_nil, List.forall_mem_cons, Chunk.len]
    have hsize : size < 2147483648 := by omega
    have hleft : c.size - (size + 8) < 2147483648 := by omega
    refine ⟨⟨by omega, ?_, ?_, hsize, by simp⟩, ⟨by omega, ?_, ?_, hleft, ?_⟩, by simp⟩
    · simp (disch := omega) only [prevsize, Mem.read32_write32_of_disjoint, hprev]
    · simp (disch := omega) only [flagsize, Mem.read32_write32_of_disjoint, Mem.read32_write32,
        Chunk.flagsize, if_true, w32_of_lt]
    · simp (disch := omega) only [prevsize, Mem.read32_write32_of_disjoint, Mem.read32_write32,
        w32_of_lt, show x + (8 + size) = x + 8 + size by omega]
    · simp (disch := omega) only [flagsize, Mem.read32_write32_of_disjoint, Mem.read32_write32,
        w32_of_lt, show x + (8 + size) = x + 8 + size by omega, Chunk.flagsize]
      simp
    · intro _
      simp only
      omega
  · have hor : c.size ||| 2147483648 = c.size + 2147483648 := or_used_bit hsz
    have hf : flagsize s.mem x = c.size := by simpa [flagsize] using hflag
    simp only [show ¬ size + 8 + 16 < c.size from hs, if_false, hf, hor,
      HeapState.addUsed_mem, HeapState.setFlagsize_mem, placed_cons, placed_nil,
      List.forall_mem_cons]
    refine ⟨⟨by omega, ?_, ?_, hsz, by simp⟩, by simp⟩
    · simp (disch := omega) only [prevsize, Mem.read32_write32_of_disjoint, hprev]
    · simp (disch := omega) only [flagsize, Mem.read32_write32_of_disjoint, Mem.read32_write32,
        Chunk.flagsize, if_true, w32_of_lt]

/-- The counters grow by the charge, and nothing else of the descriptor changes. -/
theorem allocTake_counters (hc : HdrAt s.mem lim x c) (hlim : lim < 4294967296)
    (hlo : hb + 20 ≤ x) (hfree : c.used = false) (hfit : size ≤ c.size) :
    hbUsed (allocTake s hb x size).mem hb = w32 (hbUsed s.mem hb + c.charge size) ∧
      (allocTake s hb x size).heap =
        { s.heap with memInUse := w32 (s.heap.memInUse + c.charge size) } := by
  have hpay := hc.payload hfree
  have hsz := hc.size_lt
  have hadd : ∀ u, w32 (w32 (u + 8) + size) = w32 (u + (size + 8)) := fun u => by
    simp only [w32]
    omega
  unfold allocTake Chunk.charge
  rw [hc.chunkSize, w32_of_lt (show size + 8 + 16 < 4294967296 by omega)]
  by_cases hs : size + 24 < c.size
  · have hrest : w32 (x + 8 + size) = x + 8 + size := w32_of_lt (by omega)
    simp only [show size + 8 + 16 < c.size from hs, if_true, hrest, HeapState.addUsed_mem,
      HeapState.setFlagsize_mem, HeapState.setPrevsize_mem]
    constructor
    · simp (disch := omega) only [hbUsed, Mem.read32_write32, Mem.read32_write32_of_disjoint, hadd]
    · simp only [HeapState.addUsed, HeapState.setFlagsize_heap, HeapState.setPrevsize_heap, hadd]
  · simp only [show ¬ size + 8 + 16 < c.size from hs, if_false, HeapState.addUsed_mem,
      HeapState.setFlagsize_mem]
    constructor
    · simp (disch := omega) only [hbUsed, Mem.read32_write32, Mem.read32_write32_of_disjoint]
    · simp only [HeapState.addUsed, HeapState.setFlagsize_heap]

/-- Taking a chunk in memory is `Chunk.take`. -/
theorem allocTake_blockAt (h : BlockAt s.mem b) (hb : b.chunks = pre ++ c :: post)
    (hx : x = stop Chunk.len (b.addr + 20) pre) (hfree : c.used = false) (hfit : size ≤ c.size) :
    BlockAt (allocTake s b.addr x size).mem
        { b with used := hbUsed (allocTake s b.addr x size).mem b.addr
                 chunks := pre ++ (c.take size ++ post) } ∧
      hbNext (allocTake s b.addr x size).mem b.addr = hbNext s.mem b.addr := by
  obtain ⟨hc, hlo⟩ := hdrAt_split h hb hx
  refine h.replace [c] (c.take size) hb hx rfl (Chunk.stop_take c size x).symm ?_
    (allocTake_hdrs hc h.fits hlo hfree hfit)
  refine (allocTake_only hc h.fits hlo hfree hfit).mono fun y hy => ?_
  rcases hy with hy | hy
  · exact .inl hy
  · exact .inr (.inr (.inl hy))

end take

/-! ### Releasing a chunk -/

/-- The chunk is free. -/
def Chunk.clear (c : Chunk) : Chunk := { c with used := false }

/-- The first chunk of a list follows a chunk of size `n`. -/
def relink (n : ℕ) : List Chunk → List Chunk
  | [] => []
  | e :: post => { e with prev := n } :: post

/-- A free chunk swallows its successor if that is free, too. -/
def Chunk.coalesce (c : Chunk) : List Chunk → List Chunk
  | [] => [c]
  | d :: post =>
      if d.used then c :: d :: post
      else ⟨c.prev, c.size + 8 + d.size, false⟩ :: relink (c.size + 8 + d.size) post

/-- The merged chunk ends where the following one has ended. -/
theorem Chunk.add_len_merged (x : ℕ) (c d : Chunk) :
    x + Chunk.len ⟨c.clear.prev, c.clear.size + 8 + d.size, false⟩ = x + c.len + d.len := by
  simp only [Chunk.len, Chunk.clear]
  omega

section free

variable {s : HeapState} {b : Block} {pre post : List Chunk} {c : Chunk} {x : ℕ}

theorem clear_flagsize {m : Mem} {lim : ℕ} (hc : HdrAt m lim x c) :
    flagsize m x % 2147483648 = c.size := hc.chunkSize

/-- The header with its flag cleared. -/
theorem clear_hdr {m : Mem} {lim : ℕ} (hc : HdrAt m lim x c) (hlim : lim < 4294967296)
    (hin : x + 8 + c.size ≤ lim) : HdrAt (m.write32 (x + 4) c.size) lim x c.clear := by
  have hsz := hc.size_lt
  have hprev := hc.prev
  simp only [prevsize] at hprev
  refine ⟨hc.inside, ?_, ?_, hsz, fun _ => hin⟩
  · simp (disch := omega) only [prevsize, Mem.read32_write32_of_disjoint, hprev, Chunk.clear]
  · simp (disch := omega) only [flagsize, Mem.read32_write32, Chunk.flagsize, w32_of_lt]
    simp [Chunk.clear]

/-- Clearing the used flag of a chunk that lies inside the block. -/
theorem clear_blockAt (h : BlockAt s.mem b) (hb : b.chunks = pre ++ c :: post)
    (hx : x = stop Chunk.len (b.addr + 20) pre) (hin : x + 8 + c.size ≤ b.addr + b.size) :
    BlockAt (freeUnflag s x).mem { b with chunks := pre ++ c.clear :: post } ∧
      hbNext (freeUnflag s x).mem b.addr = hbNext s.mem b.addr ∧
      Mem.Only b.Meta s.mem (freeUnflag s x).mem := by
  obtain ⟨hc, hxlo⟩ := hdrAt_split h hb hx
  have hlim := h.fits
  rw [freeUnflag, clear_flagsize hc, HeapState.setFlagsize_mem, ← and_assoc]
  have hmeta : Mem.Only b.Meta s.mem (s.mem.write32 (x + 4) c.size) := by
    refine (Mem.Only.refl _ _).write32 _ fun y hy => ?_
    have := hy.le_lt (by omega)
    exact meta_split hb hx (by omega) (by omega)
  refine ⟨?_, hmeta⟩
  have honly : Mem.Only (BlockAt.Rewrites b x (stop Chunk.len x [c])) s.mem
      (s.mem.write32 (x + 4) c.size) := by
    refine (Mem.Only.refl _ _).write32 _ fun y hy => .inr (.inr (.inl ?_))
    have := hy.le_lt (by omega)
    simp only [stop_cons, stop_nil, Chunk.len]
    omega
  have key := h.replace [c] [c.clear] hb hx rfl rfl honly ?_
  · have hu : hbUsed (s.mem.write32 (x + 4) c.size) b.addr = b.used := by
      rw [← h.used_eq, hbUsed, hbUsed,
        Mem.read32_write32_of_disjoint _ _ (by omega) (by omega) (by omega)]
    rw [hu] at key
    exact key
  · simp only [placed_cons, placed_nil, List.forall_mem_cons]
    exact ⟨clear_hdr hc hlim hin, by simp⟩

theorem freeNhdr_eq {m : Mem} {hb size : ℕ} (hc : HdrAt m (hb + size) x c)
    (hfit : hb + size < 4294967296) (hsize : hbSize m hb = size) (hfree : c.used = false) :
    freeNhdr m hb x = if hb + size ≤ x + c.len then 0 else x + c.len := by
  have hpay := hc.payload hfree
  have hflag : flagsize m x = c.size := by simp [hc.flag, Chunk.flagsize, hfree]
  simp only [freeNhdr, hflag, hsize]
  rw [w32_of_lt (show x + 8 + c.size < _ by omega), w32_of_lt hfit, Chunk.len,
    show x + 8 + c.size = x + (8 + c.size) by omega]

/-- Clearing the flag again and subtracting the size from the counters. -/
theorem freeClear_eq {lim hb : ℕ} (hc : HdrAt s.mem lim x c) (hlim : lim < 4294967296)
    (hlo : hb + 20 ≤ x) :
    freeClear s hb x =
      ⟨(s.mem.write32 (x + 4) c.size).write32 (hb + 4) (sub32 (hbUsed s.mem hb) c.size),
        { s.heap with memInUse := sub32 s.heap.memInUse c.size }⟩ := by
  have hin := hc.inside
  have hsz := hc.size_lt
  have hflag : flagsize (s.mem.write32 (x + 4) c.size) x = c.size := by
    rw [flagsize, Mem.read32_write32, w32_of_lt (by omega)]
  have hused : hbUsed (s.mem.write32 (x + 4) c.size) hb = hbUsed s.mem hb := by
    simp (disch := omega) only [hbUsed, Mem.read32_write32_of_disjoint]
  simp only [freeClear, freeUnflag, clear_flagsize hc, HeapState.setFlagsize_mem, hflag,
    HeapState.subUsed, HeapState.setFlagsize_heap, hused]

/-- The state after the merge of `freeForward`. -/
def forwardMem (m : Mem) (b : Block) (x n u : ℕ) : Mem :=
  ((m.write32 (x + 4) n).write32 (b.addr + 4) u).write32 (x + 8 + n) n

section merge

variable {m : Mem} {d : Chunk} {lim n : ℕ} (hc : HdrAt m lim x c) (hlim : lim < 4294967296)
  (hlo : b.addr + 20 ≤ x) (u : ℕ)

include hc hlim hlo in
/-- The bytes that the merge writes. -/
theorem forwardMem_only {P : ℕ → Prop} (h1 : ∀ y, x + 4 ≤ y → y < x + 8 → P y)
    (h2 : ∀ y, b.addr + 4 ≤ y → y < b.addr + 8 → P y) (h3 : ∀ y, InWord (x + 8 + n) y → P y) :
    Mem.Only P m (forwardMem m b x n u) := by
  have hin := hc.inside
  refine (((Mem.Only.refl _ _).write32 _ fun y hy => ?_).write32 _ fun y hy => ?_).write32 _ h3
  · have := hy.le_lt (by omega)
    exact h1 y (by omega) (by omega)
  · have := hy.le_lt (by omega)
    exact h2 y (by omega) (by omega)

include hc hlim hlo in
/-- The merged header.  The last write misses it, whether it is inside the block or behind it. -/
theorem merge_hdr (hd : HdrAt m lim (x + c.len) d) (hd0 : d.used = false)
    (hn : n = c.size + 8 + d.size) (hnlt : n < 2147483648)
    (hmiss : ∀ y, x ≤ y → y < x + 8 → ¬ InWord (x + 8 + n) y) :
    HdrAt (forwardMem m b x n u) lim x ⟨c.prev, n, false⟩ := by
  have hdpay := hd.payload hd0
  rw [Chunk.len] at hdpay
  have hprev := hc.prev
  simp only [prevsize] at hprev
  refine HdrAt.congr (m := (m.write32 (x + 4) n).write32 (b.addr + 4) u) ?_ hlim.le
    fun y h1 h2 => Mem.write32_of_not_inWord _ _ (hmiss y h1 h2)
  refine ⟨hc.inside, ?_, ?_, hnlt, fun _ => by simp only; omega⟩
  · simp (disch := omega) only [prevsize, Mem.read32_write32_of_disjoint, hprev]
  · simp (disch := omega) only [flagsize, Mem.read32_write32_of_disjoint, Mem.read32_write32,
      w32_of_lt]
    simp [Chunk.flagsize]

include hlim hlo in
/-- The header behind the merged chunk gets the merged size as its tag. -/
theorem relink_hdr {e : Chunk} (he : HdrAt m lim (x + 8 + n) e) :
    HdrAt (forwardMem m b x n u) lim (x + 8 + n) { e with prev := n } := by
  have hein := he.inside
  have heflag := he.flag
  simp only [flagsize] at heflag
  refine ⟨hein, ?_, ?_, he.size_lt, he.payload⟩
  · simp (disch := omega) only [prevsize, forwardMem, Mem.read32_write32, w32_of_lt]
  · simp (disch := omega) only [flagsize, forwardMem, Mem.read32_write32_of_disjoint, heflag,
      Chunk.flagsize]

include hc hlim hlo in
/-- What the merge makes of the two chunks and the one behind them. -/
theorem merge_stretch {e : Chunk} (hb : lim = b.addr + b.size) (hd : HdrAt m lim (x + c.len) d)
    (he : HdrAt m lim (x + 8 + n) e) (hd0 : d.used = false) (hn : n = c.size + 8 + d.size)
    (hnlt : n < 2147483648) :
    stop Chunk.len x [c, d, e] = stop Chunk.len x [⟨c.prev, n, false⟩, { e with prev := n }] ∧
      Mem.Only (BlockAt.Rewrites b x (stop Chunk.len x [c, d, e])) m (forwardMem m b x n u) ∧
      ∀ p ∈ placed Chunk.len x [⟨c.prev, n, false⟩, { e with prev := n }],
        HdrAt (forwardMem m b x n u) (b.addr + b.size) p.1 p.2 := by
  subst hb
  have hein := he.inside
  have hword : ∀ y, InWord (x + 8 + n) y → x + 8 + n ≤ y ∧ y < x + 8 + n + 4 :=
    fun y hy => hy.le_lt (by omega)
  refine ⟨?_, ?_, ?_⟩
  · simp only [stop_cons, stop_nil, Chunk.len]
    omega
  · refine forwardMem_only hc hlim hlo u (fun y h1 h2 => .inr (.inr (.inl ⟨by omega, ?_⟩)))
      (fun y h1 h2 => .inl ⟨h1, h2⟩) fun y hy => .inr (.inr (.inl ?_))
    · simp only [stop_cons, stop_nil, Chunk.len]
      omega
    · have := hword y hy
      simp only [stop_cons, stop_nil, Chunk.len]
      omega
  · simp only [placed_cons, placed_nil, List.forall_mem_cons]
    refine ⟨merge_hdr hc hlim hlo u hd hd0 hn hnlt fun y h1 h2 hy => ?_, ?_, by simp⟩
    · have := hword y hy
      omega
    · rw [show x + Chunk.len ⟨c.prev, n, false⟩ = x + 8 + n by simp only [Chunk.len]; omega]
      exact relink_hdr hlim hlo u he

end merge

/-- Writing the merged size to the header at `x` and to the header behind the two chunks. -/
theorem merge_blockAt {m : Mem} {d : Chunk} (h : BlockAt m b)
    (hb : b.chunks = pre ++ c :: d :: post) (hx : x = stop Chunk.len (b.addr + 20) pre)
    (hd0 : d.used = false) (u : ℕ) :
    BlockAt (forwardMem m b x (c.size + 8 + d.size) u)
        { b with used := hbUsed (forwardMem m b x (c.size + 8 + d.size) u) b.addr
                 chunks := pre ++ (c.coalesce (d :: post)) } ∧
      hbNext (forwardMem m b x (c.size + 8 + d.size) u) b.addr = hbNext m b.addr ∧
      Mem.Only (fun y => b.Meta y ∨ InWord (b.addr + b.size) y) m
        (forwardMem m b x (c.size + 8 + d.size) u) := by
  obtain ⟨hc, hxlo⟩ := hdrAt_split h hb hx
  have hsize : ∀ y, x + 4 ≤ y → y < x + 8 → b.Meta y := fun y h1 h2 =>
    meta_split hb hx (by omega) h2
  have hused : ∀ y, b.addr + 4 ≤ y → y < b.addr + 8 → b.Meta y := fun y h1 h2 =>
    .inl ⟨by omega, by omega⟩
  have hd := hdrAt_next h hb hx
  have hlim := h.fits
  have hdpay := hd.payload hd0
  have hsz := h.size_lt
  rw [Chunk.len] at hdpay
  obtain ⟨n, hn⟩ : ∃ n, n = c.size + 8 + d.size := ⟨_, rfl⟩
  rw [← hn]
  have hnlt : n < 2147483648 := by omega
  have hco : c.coalesce (d :: post) = ⟨c.prev, n, false⟩ :: relink n post := by
    simp [Chunk.coalesce, hd0, hn]
  rw [hco, ← and_assoc]
  cases post with
  | nil =>
      have hreach := h.reach
      simp only [hb, stop_append, ← hx, stop_cons, stop_nil, Chunk.len] at hreach
      have hzlim : x + 8 + n = b.addr + b.size := by omega
      have hout : ∀ y, InWord (x + 8 + n) y → ¬ b.Has y := fun y hy => h.behind (hzlim ▸ hy)
      refine ⟨h.replace [c, d] [⟨c.prev, n, false⟩] hb hx rfl ?_ ?_ ?_, ?_⟩
      · simp only [stop_cons, stop_nil, Chunk.len]
        omega
      · refine forwardMem_only hc hlim hxlo u (fun y h1 h2 => .inr (.inr (.inl ⟨by omega, ?_⟩)))
          (fun y h1 h2 => .inl ⟨h1, h2⟩) fun y hy => .inr (.inr (.inr (hout y hy)))
        simp only [stop_cons, stop_nil, Chunk.len]
        omega
      · simp only [placed_cons, placed_nil, List.forall_mem_cons]
        refine ⟨merge_hdr hc hlim hxlo u hd hd0 hn hnlt fun y h1 h2 hy => ?_, by simp⟩
        exact hout y hy ⟨by omega, by omega⟩
      · exact forwardMem_only hc hlim hxlo u (fun y h1 h2 => .inl (hsize y h1 h2))
          (fun y h1 h2 => .inl (hused y h1 h2)) fun y hy => .inr (hzlim ▸ hy)
  | cons e post =>
      have hb' : b.chunks = (pre ++ [c, d]) ++ e :: post := by simpa using hb
      have hx' : x + 8 + n = stop Chunk.len (b.addr + 20) (pre ++ [c, d]) := by
        simp only [stop_append, ← hx, stop_cons, stop_nil, Chunk.len]
        omega
      have he : HdrAt m (b.addr + b.size) (x + 8 + n) e := (hdrAt_split h hb' hx').1
      have hein := he.inside
      have hword : ∀ y, InWord (x + 8 + n) y → x + 8 + n ≤ y ∧ y < x + 8 + n + 4 :=
        fun y hy => hy.le_lt (by omega)
      obtain ⟨hextent, hrewrites, hhdrs⟩ := merge_stretch hc hlim hxlo u rfl hd he hd0 hn hnlt
      refine ⟨h.replace [c, d, e] (⟨c.prev, n, false⟩ :: [{ e with prev := n }]) hb hx rfl
        hextent hrewrites hhdrs, ?_⟩
      refine forwardMem_only hc hlim hxlo u (fun y h1 h2 => .inl (hsize y h1 h2))
        (fun y h1 h2 => .inl (hused y h1 h2)) fun y hy => .inl ?_
      have := hword y hy
      exact meta_split hb' hx' (by omega) (by omega)

theorem blockAt_same (h : BlockAt s.mem b) {cs : List Chunk} (hb : b.chunks = cs) :
    BlockAt s.mem { b with used := hbUsed s.mem b.addr, chunks := cs } := by
  rw [h.used_eq, ← hb]
  exact h

/-- The state after `freeForward`, when the chunks behind `c` are those of the list. -/
def afterForward (s : HeapState) (b : Block) (x : ℕ) (c : Chunk) : List Chunk → HeapState
  | [] => s
  | d :: _ =>
      if d.used then s
      else ⟨forwardMem s.mem b x (c.size + 8 + d.size) (sub32 (hbUsed s.mem b.addr) 8),
        { s.heap with memInUse := sub32 s.heap.memInUse 8 }⟩

theorem freeForward_eq (hc : HdrAt s.mem (b.addr + b.size) x c) (hc0 : c.used = false)
    (hfit : b.addr + b.size < 4294967296) (hsize : hbSize s.mem b.addr = b.size)
    (hlo : b.addr + 20 ≤ x) (hend : post = [] → b.addr + b.size ≤ x + c.len)
    (hnext : ∀ d ∈ post.head?, HdrAt s.mem (b.addr + b.size) (x + c.len) d) :
    freeForward s b.addr x (freeNhdr s.mem b.addr x) = afterForward s b x c post := by
  have hflag : flagsize s.mem x = c.size := by simp [hc.flag, Chunk.flagsize, hc0]
  rw [freeNhdr_eq hc hfit hsize hc0]
  cases post with
  | nil => simp only [hend rfl, if_true, freeForward, ne_eq, not_true_eq_false, false_and,
      if_false, afterForward]
  | cons d post =>
      have hd : HdrAt s.mem (b.addr + b.size) (x + c.len) d := hnext d (by simp)
      have hdin := hd.inside
      have hn : ¬ b.addr + b.size ≤ x + c.len := by omega
      have hpos : x + c.len ≠ 0 := by omega
      simp only [hn, if_false, freeForward, hpos, ne_eq, not_false_eq_true, true_and,
        hd.free_iff, afterForward]
      by_cases hd0 : d.used = false
      · have hdflag : flagsize s.mem (x + c.len) = d.size := by
          simp [hd.flag, Chunk.flagsize, hd0]
        have hdpay := hd.payload hd0
        rw [Chunk.len] at hdpay
        obtain ⟨n, hndef⟩ : ∃ n, n = c.size + 8 + d.size := ⟨_, rfl⟩
        have hread : ∀ u, flagsize ((s.mem.write32 (x + 4) n).write32 (b.addr + 4) u) x = n := by
          intro u
          simp (disch := omega) only [flagsize, Mem.read32_write32_of_disjoint,
            Mem.read32_write32, w32_of_lt]
        have hused : hbUsed (s.mem.write32 (x + 4) n) b.addr = hbUsed s.mem b.addr := by
          simp (disch := omega) only [hbUsed, Mem.read32_write32_of_disjoint]
        have hend' : w32 (x + 8 + n) = x + 8 + n := w32_of_lt (by omega)
        simp only [hd0, if_true, hflag, hdflag, ← hndef, HeapState.subUsed_mem,
          HeapState.setFlagsize_mem, hread, hend', hused, Bool.false_eq_true, if_false]
        simp only [HeapState.setPrevsize, HeapState.poke, HeapState.subUsed,
          HeapState.setFlagsize_mem, HeapState.setFlagsize_heap, hused, forwardMem]
      · simp only [Bool.not_eq_false] at hd0
        simp only [hd0, Bool.true_eq_false, if_false, if_true]

/-- The merge with the following chunk. -/
theorem freeForward_blockAt (h : BlockAt s.mem b) (hb : b.chunks = pre ++ c :: post)
    (hx : x = stop Chunk.len (b.addr + 20) pre) (hfree : c.used = false) {s' : HeapState}
    (hs' : s' = freeForward s b.addr x (freeNhdr s.mem b.addr x)) :
    s' = afterForward s b x c post ∧
      BlockAt s'.mem { b with used := hbUsed s'.mem b.addr, chunks := pre ++ c.coalesce post } ∧
      hbNext s'.mem b.addr = hbNext s.mem b.addr ∧
      Mem.Only (fun y => b.Meta y ∨ InWord (b.addr + b.size) y) s.mem s'.mem ∧
      s'.heap.fblock = s.heap.fblock := by
  obtain ⟨hc, hxlo⟩ := hdrAt_split h hb hx
  have hs : s' = afterForward s b x c post := by
    refine hs'.trans (freeForward_eq hc hfree h.fits h.size_eq hxlo ?_ ?_)
    · rintro rfl
      simpa only [hb, stop_append, ← hx, stop_cons, stop_nil] using h.reach
    · intro d hd
      cases post with
      | nil => simp at hd
      | cons e post =>
          obtain rfl : e = d := by simpa using hd
          exact hdrAt_next h hb hx
  refine ⟨hs, ?_⟩
  rw [hs]
  cases post with
  | nil => exact ⟨blockAt_same h hb, rfl, .refl _ _, rfl⟩
  | cons d post =>
      simp only [afterForward]
      by_cases hd0 : d.used = true
      · simp only [hd0, if_true]
        refine ⟨blockAt_same h ?_, trivial, .refl _ _, trivial⟩
        simp [hb, Chunk.coalesce, hd0]
      · simp only [Bool.not_eq_true] at hd0
        simp only [hd0, Bool.false_eq_true, if_false]
        obtain ⟨h1, h2, h3⟩ := merge_blockAt h hb hx hd0 (sub32 (hbUsed s.mem b.addr) 8)
        exact ⟨h1, h2, h3, trivial⟩

/-- The header behind the two chunks that `freeBackward` takes to be neighbours. -/
def backwardNhdr (m : Mem) (hdr phdr : ℕ) : ℕ :=
  w32 (phdr + 8 + w32 (flagsize m phdr + 8 + flagsize m hdr))

/-- The merge with the preceding chunk is not taken, or writes only bytes outside `K`. -/
def BackwardMisses (K : ℕ → Prop) (s : HeapState) (hb hdr phdr : ℕ) : Prop :=
  phdr ≠ 0 → flagsize s.mem phdr < 2147483648 →
    (∀ y, InWord (phdr + 4) y → ¬ K y) ∧
      (backwardNhdr s.mem hdr phdr < w32 (hb + 20 + hbSize s.mem hb) →
        ∀ y, InWord (backwardNhdr s.mem hdr phdr) y → ¬ K y)

theorem freeBackward_only {K : ℕ → Prop} (h : BlockAt s.mem b) (hK : ∀ y, b.Has y → K y)
    {phdr : ℕ} (hmiss : BackwardMisses K s b.addr x phdr) :
    Mem.Only (fun y => (b.addr + 4 ≤ y ∧ y < b.addr + 8) ∨ ¬ K y) s.mem
        (freeBackward s b.addr x phdr).2.mem ∧
      (freeBackward s b.addr x phdr).2.heap.fblock = s.heap.fblock := by
  have hlim := h.fits
  have hge := h.size_ge
  unfold freeBackward
  by_cases ht : phdr ≠ 0 ∧ flagsize s.mem phdr < 2147483648
  · obtain ⟨hm1, hm2⟩ := hmiss ht.1 ht.2
    have hused : ∀ y, InWord (b.addr + 4) y → b.addr + 4 ≤ y ∧ y < b.addr + 8 := by
      intro y hy
      have := hy.le_lt (by omega)
      omega
    have hflag : ∀ v u, flagsize ((s.mem.write32 (phdr + 4) v).write32 (b.addr + 4) u) phdr =
        w32 v := by
      intro v u
      have hsep : ∀ y, InWord (phdr + 4) y → ¬ InWord (b.addr + 4) y := by
        intro y hy hy'
        have := hused y hy'
        exact hm1 y hy (hK y ⟨by omega, by omega⟩)
      rw [flagsize, (Mem.only_write32 _ _ _).read32 hsep, Mem.read32_write32]
    have hsize : ∀ v u, hbSize ((s.mem.write32 (phdr + 4) v).write32 (b.addr + 4) u) b.addr =
        hbSize s.mem b.addr := by
      intro v u
      have hsep : ∀ y, InWord b.addr y → ¬ InWord (phdr + 4) y := by
        intro y hy hy'
        have := hy.le_lt (by omega)
        exact hm1 y hy' (hK y ⟨by omega, by omega⟩)
      rw [hbSize, Mem.read32_write32_of_disjoint _ _ (by omega) (by omega) (by omega),
        (Mem.only_write32 _ _ _).read32 hsep, hbSize]
    have h12 : ∀ v u, Mem.Only (fun y => (b.addr + 4 ≤ y ∧ y < b.addr + 8) ∨ ¬ K y) s.mem
        ((s.mem.write32 (phdr + 4) v).write32 (b.addr + 4) u) := fun v u =>
      ((Mem.Only.refl _ _).write32 _ fun y hy => .inr (hm1 y hy)).write32 _
        fun y hy => .inl (hused y hy)
    simp only [ht, if_true, ne_eq, not_false_eq_true, and_self, HeapState.subUsed_mem,
      HeapState.setFlagsize_mem, hflag, hsize]
    rw [← backwardNhdr]
    split
    · rename_i hlt
      refine ⟨?_, by simp⟩
      simp only [HeapState.setPrevsize_mem, HeapState.subUsed_mem, HeapState.setFlagsize_mem]
      exact (h12 _ _).write32 _ fun y hy => .inr (hm2 hlt y hy)
    · refine ⟨?_, by simp⟩
      simp only [HeapState.subUsed_mem, HeapState.setFlagsize_mem]
      exact h12 _ _
  · simp only [ht, if_false]
    exact ⟨.refl _ _, trivial⟩

theorem freeNote_only {hb : ℕ} (hlim : hb + 20 ≤ 4294967296) (hdr : ℕ) :
    Mem.Only (fun y => hb + 12 ≤ y ∧ y < hb + 20) s.mem (freeNote s hb hdr).mem ∧
      (freeNote s hb hdr).heap = s.heap := by
  unfold freeNote
  split
  · refine ⟨((Mem.Only.refl _ _).write32 _ fun y hy => ?_).write32 _ fun y hy => ?_, rfl⟩
    all_goals
      have := hy.le_lt (by omega)
      omega
  · exact ⟨.refl _ _, rfl⟩

/-- The merge with the preceding chunk of a call misses the bytes `K`. -/
def FreeMisses (K : ℕ → Prop) (s : HeapState) (hb hdr hdrVar : ℕ) : Prop :=
  let s := freeClear s hb hdr
  let phdr := freePhdr s.mem hdr hdrVar
  BackwardMisses K (freeForward s hb hdr (freeNhdr s.mem hb hdr)) hb hdr phdr

/-- Clearing the flag and the counters. -/
theorem freeClear_blockAt (h : BlockAt s.mem b) (hb : b.chunks = pre ++ c :: post)
    (hx : x = stop Chunk.len (b.addr + 20) pre) (hin : x + 8 + c.size ≤ b.addr + b.size)
    {s' : HeapState} (hs' : s' = freeClear s b.addr x) :
    BlockAt s'.mem { b with used := hbUsed s'.mem b.addr, chunks := pre ++ c.clear :: post } ∧
      hbNext s'.mem b.addr = hbNext s.mem b.addr ∧ Mem.Only b.Meta s.mem s'.mem ∧
      s'.heap.fblock = s.heap.fblock := by
  have hlim := h.fits
  have hge := h.size_ge
  obtain ⟨k1, k2, k0⟩ := clear_blockAt h hb hx hin
  have hm : Mem.Only (fun y => b.addr + 4 ≤ y ∧ y < b.addr + 8) (freeUnflag s x).mem s'.mem := by
    rw [hs']
    refine (Mem.Only.refl _ _).write32 _ fun y hy => ?_
    have := hy.le_lt (by omega)
    omega
  obtain ⟨k3, k4⟩ := k1.descriptor (hm.mono fun y hy => .inl hy)
  exact ⟨k3, k4.trans k2, k0.trans (hm.mono fun y hy => .inl ⟨by omega, by omega⟩),
    by rw [hs']; rfl⟩

/-- Clearing a chunk leaves the headers where they are. -/
theorem meta_clear {u y : ℕ} (hb : b.chunks = pre ++ c :: post)
    (h : Block.Meta { b with used := u, chunks := pre ++ c.clear :: post } y) : b.Meta y := by
  have hlen : c.clear.len = c.len := rfl
  rcases h with h | ⟨p, hp, h1, h2⟩
  · exact .inl h
  · simp only [Block.headers, placed_append, placed_cons, List.mem_append, List.mem_cons, hlen]
      at hp
    rcases hp with hp | rfl | hp
    · refine .inr ⟨p, ?_, h1, h2⟩
      simp [Block.headers, hb, placed_append, hp]
    · exact meta_split hb rfl h1 h2
    · refine .inr ⟨p, ?_, h1, h2⟩
      simp [Block.headers, hb, placed_append, hp]

/-- The chunk at `x` is released. -/
theorem freeIn_blockAt {K : ℕ → Prop} (h : BlockAt s.mem b) (hb : b.chunks = pre ++ c :: post)
    (hx : x = stop Chunk.len (b.addr + 20) pre) (hin : x + 8 + c.size ≤ b.addr + b.size)
    (hK : ∀ y, b.Has y → K y) {hdrVar : ℕ} (hmiss : FreeMisses K s b.addr x hdrVar)
    {s' : HeapState} (hs' : s' = freeIn s b.addr x hdrVar) :
    BlockAt s'.mem
        { b with used := hbUsed s'.mem b.addr, chunks := pre ++ c.clear.coalesce post } ∧
      hbNext s'.mem b.addr = hbNext s.mem b.addr ∧
      Mem.Only (fun y => b.Meta y ∨ InWord (b.addr + b.size) y ∨ ¬ K y) s.mem s'.mem ∧
      s'.heap.fblock = s.heap.fblock := by
  have hlim := h.fits
  have hge := h.size_ge
  obtain ⟨k3, k4, k0, kf⟩ := freeClear_blockAt h hb hx hin rfl
  set s1 := freeClear s b.addr x with hs1
  -- merging forward
  obtain ⟨_, k5, k6, k7, k8⟩ := freeForward_blockAt k3 rfl hx rfl rfl
  set s2 := freeForward s1 b.addr x (freeNhdr s1.mem b.addr x) with hs2
  -- merging backward, and the note
  obtain ⟨k9, k10⟩ := freeBackward_only k5 hK hmiss
  set r := freeBackward s2 b.addr x (freePhdr s1.mem x hdrVar) with hr
  obtain ⟨k11, k12⟩ := k5.descriptor (k9.mono fun y hy => hy.elim .inl
    fun hy => .inr (.inr (.inr fun hhas => hy (hK y hhas))))
  have hnlim : b.addr + 20 ≤ 4294967296 := by omega
  obtain ⟨k13, k14⟩ := freeNote_only (s := r.2) hnlim r.1
  obtain ⟨k15, k16⟩ := k11.descriptor (k13.mono fun y hy => .inr (.inl hy))
  have hfin : s' = freeNote r.2 b.addr r.1 := by rw [hs']; rfl
  rw [hfin]
  refine ⟨k15, ?_, ?_, ?_⟩
  · exact k16.trans (k12.trans (k6.trans k4))
  · refine (k0.mono fun y hy => .inl hy).trans
      ((k7.mono fun y hy => hy.imp (meta_clear hb) .inl).trans
        (Mem.Only.trans (k9.mono fun y hy => ?_) (k13.mono fun y hy => ?_)))
    · rcases hy with hy | hy
      · have hy' : b.addr + 4 ≤ y ∧ y < b.addr + 8 := hy
        exact .inl (.inl ⟨by omega, by omega⟩)
      · exact .inr (.inr hy)
    · have hy' : b.addr + 12 ≤ y ∧ y < b.addr + 20 := hy
      exact .inl (.inl ⟨by omega, by omega⟩)
  · rw [k14]
    exact k10.trans (k8.trans kf)

/-! The counters, when the merge with the preceding chunk is not taken. -/

/-- What the counters lose when the chunk is released: its size, and the header of a chunk
behind it that it swallows. -/
def Chunk.refund (c : Chunk) : List Chunk → ℕ
  | [] => c.size
  | d :: _ => if d.used then c.size else c.size + 8

/-- The merge with the preceding chunk of a call is not taken. -/
def FreeIdle (s : HeapState) (hb hdr hdrVar : ℕ) : Prop :=
  let s := freeClear s hb hdr
  let phdr := freePhdr s.mem hdr hdrVar
  phdr ≠ 0 → 2147483648 ≤ flagsize (freeForward s hb hdr (freeNhdr s.mem hb hdr)).mem phdr

theorem FreeIdle.misses {K : ℕ → Prop} {hb hdr hdrVar : ℕ} (h : FreeIdle s hb hdr hdrVar) :
    FreeMisses K s hb hdr hdrVar := fun hne hlt => absurd hlt (h hne).not_gt

theorem freeBackward_idle {hb hdr phdr : ℕ}
    (h : phdr ≠ 0 → 2147483648 ≤ flagsize s.mem phdr) : freeBackward s hb hdr phdr = (hdr, s) := by
  have hno : ¬ (phdr ≠ 0 ∧ flagsize s.mem phdr < 2147483648) :=
    fun hp => absurd hp.2 (h hp.1).not_gt
  simp only [freeBackward, hno, if_false]

/-- The word behind `x` on does not reach the descriptor, even when it wraps around. -/
theorem behind_descriptor {hb y z : ℕ} (hpos : 0 < hb) (hlo : hb + 20 ≤ z) (hz : z < 4294967296)
    (hy : InWord z y) : ¬ (hb + 4 ≤ y ∧ y < hb + 20) := by
  simp only [InWord, w32] at hy
  omega

theorem freeIn_counters (h : BlockAt s.mem b) (hb : b.chunks = pre ++ c :: post)
    (hx : x = stop Chunk.len (b.addr + 20) pre) (hin : x + 8 + c.size ≤ b.addr + b.size)
    {hdrVar : ℕ} (hidle : FreeIdle s b.addr x hdrVar) {s' : HeapState}
    (hs' : s' = freeIn s b.addr x hdrVar) :
    hbUsed s'.mem b.addr = sub32 b.used (c.refund post) ∧
      s'.heap = { s.heap with memInUse := sub32 s.heap.memInUse (c.refund post) } := by
  have hlim := h.fits
  have hge := h.size_ge
  obtain ⟨hc, hxlo⟩ := hdrAt_split h hb hx
  obtain ⟨k3, -⟩ := freeClear_blockAt h hb hx hin rfl
  have hclear : freeClear s b.addr x = _ := freeClear_eq hc h.fits hxlo
  obtain ⟨hfwd, -⟩ := freeForward_blockAt k3 rfl hx rfl rfl
  have hfin : s' = freeNote (afterForward (freeClear s b.addr x)
      { b with used := hbUsed (freeClear s b.addr x).mem b.addr
               chunks := pre ++ c.clear :: post } x c.clear post) b.addr x := by
    simp only [hs', freeIn]
    rw [freeBackward_idle hidle, hfwd]
  obtain ⟨hnote, hnoteHeap⟩ := freeNote_only (s := afterForward (freeClear s b.addr x)
      { b with used := hbUsed (freeClear s b.addr x).mem b.addr
               chunks := pre ++ c.clear :: post } x c.clear post)
    (show b.addr + 20 ≤ 4294967296 by omega) x
  have hnoteUsed : hbUsed s'.mem b.addr = hbUsed (afterForward (freeClear s b.addr x)
      { b with used := hbUsed (freeClear s b.addr x).mem b.addr
               chunks := pre ++ c.clear :: post } x c.clear post).mem b.addr := by
    rw [hfin]
    refine hnote.read32 fun y hy hy' => ?_
    have := hy.le_lt (by omega)
    have hy'' : b.addr + 12 ≤ y ∧ y < b.addr + 20 := hy'
    omega
  have hused1 : hbUsed (freeClear s b.addr x).mem b.addr = sub32 b.used c.size := by
    rw [hclear, hbUsed, Mem.read32_write32, w32_of_lt (sub32_lt _ _), h.used_eq]
  have hheap1 : (freeClear s b.addr x).heap =
      { s.heap with memInUse := sub32 s.heap.memInUse c.size } := by rw [hclear]
  rw [hnoteUsed, hfin, hnoteHeap]
  cases post with
  | nil => exact ⟨hused1, hheap1⟩
  | cons d post =>
      simp only [afterForward, Chunk.refund]
      by_cases hd0 : d.used = true
      · simp only [hd0, if_true]
        exact ⟨hused1, hheap1⟩
      · simp only [Bool.not_eq_true] at hd0
        simp only [hd0, Bool.false_eq_true, if_false]
        constructor
        · have hdpay := (hdrAt_next h hb hx).payload hd0
          rw [Chunk.len] at hdpay
          rw [forwardMem, hbUsed, (Mem.only_write32 _ _ _).read32, Mem.read32_write32,
            w32_of_lt (sub32_lt _ _), hused1, sub32_sub32]
          intro y hy hy'
          have := hy.le_lt (by omega)
          refine behind_descriptor h.addr_pos ?_ ?_ hy' ⟨this.1, by omega⟩
          all_goals simp only [Chunk.clear]
          all_goals omega
        · rw [hheap1]
          simp only [sub32_sub32]

end free

/-! ### The whole heap -/

/-- The heap in state `s` consists of the blocks `bs`. -/
structure HeapInv (s : HeapState) (bs : List Block) : Prop where
  blocks : BlocksAt s.mem s.heap.fblock bs
  apart : bs.Pairwise Apart

theorem Linked.mem {P : Mem → Block → Prop} {m : Mem} :
    ∀ {bs : List Block} {hb : ℕ}, Linked P m hb bs → ∀ b ∈ bs, P m b
  | c :: bs, _, ⟨_, hc, hrest⟩, b, hb => by
      rcases List.mem_cons.mp hb with rfl | hb
      · exact hc
      · exact Linked.mem hrest b hb

theorem BlocksAt.mem {m : Mem} {bs : List Block} {hb : ℕ} (h : BlocksAt m hb bs) :
    ∀ b ∈ bs, BlockAt m b := (blocksAt_iff.mp h).mem

theorem Linked.imp {P Q : Mem → Block → Prop} {m : Mem} :
    ∀ {bs : List Block} {hb : ℕ}, Linked P m hb bs → (∀ b ∈ bs, P m b → Q m b) → Linked Q m hb bs
  | [], _, h, _ => h
  | c :: _, _, ⟨hhb, hc, hrest⟩, hPQ =>
      ⟨hhb, hPQ c List.mem_cons_self hc,
        hrest.imp fun b hb => hPQ b (List.mem_cons_of_mem _ hb)⟩

theorem Linked.congr {P : Mem → Block → Prop} {m m' : Mem} :
    ∀ {bs : List Block} {hb : ℕ}, Linked P m hb bs →
      (∀ b ∈ bs, P m b → P m' b ∧ hbNext m' b.addr = hbNext m b.addr) → Linked P m' hb bs
  | [], _, h, _ => h
  | c :: bs, _, ⟨hhb, hc, hrest⟩, hm => by
      obtain ⟨h1, h2⟩ := hm c List.mem_cons_self hc
      refine ⟨hhb, h1, ?_⟩
      rw [h2]
      exact hrest.congr fun b hb => hm b (List.mem_cons_of_mem _ hb)

/-- One block of a linked list changes, the others stay. -/
theorem Linked.update {P : Mem → Block → Prop} {m m' : Mem} {b b' : Block} {bs₂ : List Block} :
    ∀ {bs₁ : List Block} {hb : ℕ}, Linked P m hb (bs₁ ++ b :: bs₂) → b'.addr = b.addr →
      P m' b' → hbNext m' b.addr = hbNext m b.addr →
      (∀ c ∈ bs₁ ++ bs₂, P m c → P m' c ∧ hbNext m' c.addr = hbNext m c.addr) →
      Linked P m' hb (bs₁ ++ b' :: bs₂)
  | [], _, ⟨hhb, _, hrest⟩, haddr, hb', hnext, hm => by
      refine ⟨hhb.trans haddr.symm, hb', ?_⟩
      rw [haddr, hnext]
      exact hrest.congr hm
  | c :: bs₁, _, ⟨hhb, hc, hrest⟩, haddr, hb', hnext, hm => by
      obtain ⟨h1, h2⟩ := hm c List.mem_cons_self hc
      refine ⟨hhb, h1, ?_⟩
      rw [h2]
      exact Linked.update hrest haddr hb' hnext fun d hd => hm d (List.mem_cons_of_mem _ hd)

theorem BlocksAt.congr {m m' : Mem} {bs : List Block} {hb : ℕ} (h : BlocksAt m hb bs)
    (hm : ∀ b ∈ bs, ∀ y, b.Meta y → m' y = m y) : BlocksAt m' hb bs :=
  blocksAt_iff.mpr ((blocksAt_iff.mp h).congr fun b hb hat => hat.congr (hm b hb))

/-- One block changes, the others keep their metadata. -/
theorem BlocksAt.update {m m' : Mem} {b b' : Block} {bs₁ bs₂ : List Block} {hb : ℕ}
    (h : BlocksAt m hb (bs₁ ++ b :: bs₂)) (haddr : b'.addr = b.addr) (hb' : BlockAt m' b')
    (hnext : hbNext m' b.addr = hbNext m b.addr)
    (hm : ∀ c ∈ bs₁ ++ bs₂, ∀ y, c.Meta y → m' y = m y) : BlocksAt m' hb (bs₁ ++ b' :: bs₂) :=
  blocksAt_iff.mpr ((blocksAt_iff.mp h).update haddr hb' hnext fun c hc hat => hat.congr (hm c hc))

/-- The search of `k_heapLCABFree` ends in a block that holds the pointer. -/
theorem freeFind_mem {m : Mem} {ptr r : ℕ} : ∀ {n hb : ℕ} {bs : List Block}, BlocksAt m hb bs →
    freeFind m ptr n hb = some r → ∃ b ∈ bs, r = b.addr ∧ b.addr < ptr ∧ ptr < b.addr + b.size
  | 0, _, _, _, h => by cases h
  | n + 1, hb, [], hbs, h => by
      have hz : hb = 0 := hbs
      simp [freeFind, hz] at h
  | n + 1, hb, b :: bs, ⟨hhb, hb', hrest⟩, h => by
      subst hhb
      simp only [freeFind, hb'.addr_pos.ne', if_false, hb'.size_eq, w32_of_lt hb'.fits] at h
      split at h
      · rename_i hin
        cases h
        exact ⟨b, List.mem_cons_self, rfl, hin⟩
      · obtain ⟨c, hc, hrc⟩ := freeFind_mem hrest h
        exact ⟨c, List.mem_cons_of_mem _ hc, hrc⟩

/-- The search among blocks that are where they say ends: in a block that holds the pointer, or
behind the last one. -/
theorem freeFind_linked {P : Mem → Block → Prop} {m : Mem} {bs : List Block} (ptr : ℕ)
    (hP : ∀ b, P m b → 0 < b.addr ∧ hbSize m b.addr = b.size ∧ b.addr + b.size < 4294967296) :
    ∀ {hb n : ℕ}, Linked P m hb bs → bs.length < n →
      (freeFind m ptr n hb = none ∧ ∀ b ∈ bs, ¬ (b.addr < ptr ∧ ptr < b.addr + b.size)) ∨
        ∃ b ∈ bs, freeFind m ptr n hb = some b.addr ∧ b.addr < ptr ∧ ptr < b.addr + b.size := by
  induction bs with
  | nil =>
      intro hb n hbs hn
      obtain rfl : hb = 0 := hbs
      refine .inl ⟨?_, by simp⟩
      cases n with
      | zero => rfl
      | succ n => simp [freeFind]
  | cons b bs ih =>
      rintro hb n ⟨rfl, hat, hrest⟩ hn
      obtain ⟨hpos, hsize, hfit⟩ := hP b hat
      cases n with
      | zero => simp at hn
      | succ n =>
          simp only [freeFind, hpos.ne', if_false, hsize, w32_of_lt hfit]
          by_cases hin : b.addr < ptr ∧ ptr < b.addr + b.size
          · exact .inr ⟨b, List.mem_cons_self, by rw [if_pos hin], hin⟩
          · rw [if_neg hin]
            rcases ih hrest (by simpa using hn) with ⟨h1, h2⟩ | ⟨d, hd, h1, h2⟩
            · exact .inl ⟨h1, List.forall_mem_cons.mpr ⟨hin, h2⟩⟩
            · exact .inr ⟨d, List.mem_cons_of_mem _ hd, h1, h2⟩

theorem apart_of_same {b b' c : Block} (ha : b'.addr = b.addr) (hs : b'.size = b.size) :
    Apart b' c ↔ Apart b c := by simp [Apart, ha, hs]

theorem pairwise_apart_update {b b' : Block} {bs₁ bs₂ : List Block} (ha : b'.addr = b.addr)
    (hs : b'.size = b.size) (h : (bs₁ ++ b :: bs₂).Pairwise Apart) :
    (bs₁ ++ b' :: bs₂).Pairwise Apart := by
  rw [List.pairwise_append, List.pairwise_cons] at h ⊢
  obtain ⟨h1, ⟨h2, h3⟩, h4⟩ := h
  refine ⟨h1, ⟨fun c hc => (apart_of_same ha hs).mpr (h2 c hc), h3⟩, fun c hc d hd => ?_⟩
  rcases List.mem_cons.mp hd with rfl | hd
  · exact ((apart_of_same ha hs).mpr (h4 c hc b List.mem_cons_self).symm).symm
  · exact h4 c hc d (List.mem_cons_of_mem _ hd)

theorem pairwise_apart_others {b : Block} {bs₁ bs₂ : List Block}
    (h : (bs₁ ++ b :: bs₂).Pairwise Apart) : ∀ c ∈ bs₁ ++ bs₂, Apart b c := by
  rw [List.pairwise_append, List.pairwise_cons] at h
  obtain ⟨_, ⟨h2, _⟩, h4⟩ := h
  intro c hc
  rcases List.mem_append.mp hc with hc | hc
  · exact (h4 c hc b List.mem_cons_self).symm
  · exact h2 c hc

/-- A change of one block that leaves the bytes of the others alone. -/
theorem HeapInv.update {s s' : HeapState} {b b' : Block} {bs₁ bs₂ : List Block}
    (h : HeapInv s (bs₁ ++ b :: bs₂)) (ha : b'.addr = b.addr) (hs : b'.size = b.size)
    (hb' : BlockAt s'.mem b') (hnext : hbNext s'.mem b.addr = hbNext s.mem b.addr)
    (hf : s'.heap.fblock = s.heap.fblock)
    (hm : ∀ c ∈ bs₁ ++ bs₂, Apart b c → ∀ y, c.Has y → s'.mem y = s.mem y) :
    HeapInv s' (bs₁ ++ b' :: bs₂) := by
  have hc : ∀ c ∈ bs₁ ++ bs₂, BlockAt s.mem c := fun c hc =>
    h.blocks.mem c (by simp only [List.mem_append, List.mem_cons] at hc ⊢; tauto)
  refine ⟨?_, pairwise_apart_update ha hs h.apart⟩
  rw [hf]
  refine h.blocks.update ha hb' hnext fun c hcm y hy => ?_
  exact hm c hcm (pairwise_apart_others h.apart c hcm) y ((hc c hcm).meta_has hy)

/-- What a call of `k_heapLCABAlloc` does to the heap. -/
theorem alloc_heapInv {s s' : HeapState} {bs : List Block} {fuel size p : ℕ} (h : HeapInv s bs)
    (hs : kHeapLCABAlloc fuel s size = some (p, s')) :
    (firstFit size bs = none ∧ p = 0 ∧ s' = s) ∨
      ∃ bs₁ b bs₂ pre c post, bs = bs₁ ++ b :: bs₂ ∧ b.chunks = pre ++ c :: post ∧
        firstFit size bs = some (b, stop Chunk.len (b.addr + 20) pre, c) ∧
        allocFind s.mem size fuel fuel s.heap.fblock =
          some (some (b.addr, stop Chunk.len (b.addr + 20) pre)) ∧
        c.used = false ∧ size ≤ c.size ∧ p = stop Chunk.len (b.addr + 20) pre + 8 ∧
        HeapInv s' (bs₁ ++ { b with used := hbUsed s'.mem b.addr
                                    chunks := pre ++ (c.take size ++ post) } :: bs₂) := by
  unfold kHeapLCABAlloc at hs
  cases hf : allocFind s.mem size fuel fuel s.heap.fblock with
  | none => simp [hf] at hs
  | some o =>
      have ho := allocFind_eq fuel _ bs h.blocks hf
      cases hfit : firstFit size bs with
      | none =>
          rw [hfit] at ho
          subst ho
          simp only [hf, Option.map_none, Option.some.injEq, Prod.mk.injEq] at hs
          exact .inl ⟨rfl, hs.1.symm, hs.2.symm⟩
      | some q =>
          obtain ⟨b, x, c⟩ := q
          rw [hfit] at ho
          subst ho
          simp only [hf, Option.map_some, Option.some.injEq, Prod.mk.injEq] at hs
          obtain ⟨hp, rfl⟩ := hs
          obtain ⟨hb, hx, hfree, hsize⟩ := firstFit_mem hfit
          obtain ⟨bs₁, bs₂, rfl⟩ := List.append_of_mem hb
          obtain ⟨pre, post, hchunks, hxe⟩ := exists_split_of_mem_placed Chunk.len hx
          have hbat := h.blocks.mem b hb
          have hin := (hbat.hdrs _ hx).inside
          have hlim := hbat.fits
          simp only at hin hxe hfree hsize
          refine .inr ⟨bs₁, b, bs₂, pre, c, post, rfl, hchunks, by rw [hxe], by rw [Option.map_some, hxe],
            hfree, hsize, ?_, ?_⟩
          · rw [← hp, w32_of_lt (by omega), hxe]
          · obtain ⟨k1, k2⟩ := allocTake_blockAt hbat hchunks hxe hfree hsize
            have konly : Mem.Only _ s.mem (allocTake s b.addr x size).mem :=
              allocTake_only (hbat.hdrs _ hx) hlim (placed_bounds Chunk.len hx).1 hfree hsize
            refine h.update rfl rfl k1 k2 ?_ fun d _ hd y hy => konly y ?_
            · exact allocTake_fblock s b.addr x size
            · have hpay := (hbat.hdrs _ hx).payload hfree
              have hge := hbat.size_ge
              have hlo := (placed_bounds Chunk.len hx).1
              have := mt (hd.1 y) (not_not.mpr hy)
              simp only [Chunk.len] at this hpay ⊢
              omega

/-- The heap with the flag of a chunk cleared that lies inside its block. -/
theorem unflag_heapInv {s : HeapState} {b : Block} {bs₁ bs₂ : List Block} {pre post : List Chunk}
    {c : Chunk} {x : ℕ} (h : HeapInv s (bs₁ ++ b :: bs₂)) (hb : b.chunks = pre ++ c :: post)
    (hx : x = stop Chunk.len (b.addr + 20) pre) (hin : x + 8 + c.size ≤ b.addr + b.size) :
    HeapInv (freeUnflag s x) (bs₁ ++ { b with chunks := pre ++ c.clear :: post } :: bs₂) := by
  have hbat := h.blocks.mem b (by simp)
  obtain ⟨k1, k2, k3⟩ := clear_blockAt hbat hb hx hin
  refine h.update rfl rfl k1 k2 (by simp [freeUnflag]) fun d _ hd y hy => ?_
  exact k3 y fun hy' => hd.1 y (hbat.meta_has hy') hy

/-- The search for the payload of a chunk that lies inside its block finds that block, if the
payload starts in it. -/
theorem freeFind_payload {s : HeapState} {b : Block} {bs₁ bs₂ : List Block}
    {pre post : List Chunk} {c : Chunk} {fuel x ptr r : ℕ}
    (h : HeapInv s (bs₁ ++ b :: bs₂)) (hb : b.chunks = pre ++ c :: post)
    (hx : x = stop Chunk.len (b.addr + 20) pre) (hp : ptr = x + 8)
    (hin : x + 8 + c.size ≤ b.addr + b.size)
    (hf : freeFind (freeUnflag s x).mem ptr fuel (freeUnflag s x).heap.fblock = some r) :
    r = b.addr ∧ ptr < b.addr + b.size := by
  obtain ⟨hc, hxlo⟩ := hdrAt_split (h.blocks.mem b (by simp)) hb hx
  have h0 := unflag_heapInv h hb hx hin
  obtain ⟨d, hd, rfl, hlo, hhi⟩ := freeFind_mem h0.blocks hf
  -- the payload pointer lies in no other block
  have hother : ∀ e ∈ bs₁ ++ bs₂, e.addr < ptr → ptr < e.addr + e.size → False := by
    intro e he h1 h2
    refine (pairwise_apart_others h.apart e he).1 (ptr - 1) ⟨?_, ?_⟩ ⟨?_, ?_⟩
    all_goals have := hc.inside
    all_goals omega
  simp only [List.mem_append, List.mem_cons] at hd
  rcases hd with hd | rfl | hd
  · exact (hother d (by simp [hd]) hlo hhi).elim
  · exact ⟨rfl, hhi⟩
  · exact (hother d (by simp [hd]) hlo hhi).elim

/-- A call of `k_heapLCABFree` for the payload of a chunk that lies inside its block ends in the
search only if the payload starts in the block, and then releases the chunk. -/
theorem free_eq_freeIn {s s' : HeapState} {b : Block} {bs₁ bs₂ : List Block}
    {pre post : List Chunk} {c : Chunk} {fuel x ptr hdrVar : ℕ}
    (h : HeapInv s (bs₁ ++ b :: bs₂)) (hb : b.chunks = pre ++ c :: post)
    (hx : x = stop Chunk.len (b.addr + 20) pre) (hp : ptr = x + 8)
    (hin : x + 8 + c.size ≤ b.addr + b.size)
    (hs : kHeapLCABFree fuel s hdrVar ptr = some s') :
    ptr < b.addr + b.size ∧ s' = freeIn (freeUnflag s x) b.addr x hdrVar ∧
      HeapInv (freeUnflag s x) (bs₁ ++ { b with chunks := pre ++ c.clear :: post } :: bs₂) := by
  have hbat := h.blocks.mem b (by simp)
  obtain ⟨hc, hxlo⟩ := hdrAt_split hbat hb hx
  have hlim := hbat.fits
  have hhdr : sub32 ptr 8 = x := by rw [hp, sub32_of_le (by omega) (by omega)]; omega
  simp only [kHeapLCABFree, hhdr] at hs
  cases hf : freeFind (freeUnflag s x).mem ptr fuel (freeUnflag s x).heap.fblock with
  | none => simp [hf] at hs
  | some r =>
      simp only [hf, Option.some.injEq] at hs
      obtain ⟨rfl, hlt⟩ := freeFind_payload h hb hx hp hin hf
      exact ⟨hlt, hs.symm, unflag_heapInv h hb hx hin⟩

/-- What a call of `k_heapLCABFree` does to the heap when the pointer is the payload of a chunk
that lies inside its block. -/
theorem free_heapInv {K : ℕ → Prop} {s s' : HeapState} {b : Block} {bs₁ bs₂ : List Block}
    {pre post : List Chunk} {c : Chunk} {fuel x ptr hdrVar : ℕ}
    (h : HeapInv s (bs₁ ++ b :: bs₂)) (hb : b.chunks = pre ++ c :: post)
    (hx : x = stop Chunk.len (b.addr + 20) pre) (hp : ptr = x + 8)
    (hin : x + 8 + c.size ≤ b.addr + b.size)
    (hK : ∀ d ∈ bs₁ ++ b :: bs₂, ∀ y, d.Has y → K y)
    (hmiss : ptr < b.addr + b.size → FreeMisses K (freeUnflag s x) b.addr x hdrVar)
    (hs : kHeapLCABFree fuel s hdrVar ptr = some s') :
    HeapInv s' (bs₁ ++ { b with used := hbUsed s'.mem b.addr
                                chunks := pre ++ c.clear.coalesce post } :: bs₂) := by
  have hbmem : b ∈ bs₁ ++ b :: bs₂ := by simp
  obtain ⟨hlt, hs, h0⟩ := free_eq_freeIn h hb hx hp hin hs
  have hin' : x + 8 + c.clear.size ≤ b.addr + b.size := hin
  have hbat := h0.blocks.mem _ (List.mem_append_right _ List.mem_cons_self)
  obtain ⟨k4, k5, k6, k7⟩ := freeIn_blockAt hbat rfl hx hin' (hK b hbmem) (hmiss hlt) hs
  refine h0.update rfl rfl k4 k5 k7 fun e hmem he y hy => k6 y ?_
  rintro (hy' | hy' | hy')
  · exact he.1 y (hbat.meta_has hy') hy
  · exact he.2.1 y hy' hy
  · refine hy' (hK e ?_ y hy)
    simp only [List.mem_append, List.mem_cons] at hmem ⊢
    tauto

/-- The call ends if the payload starts in the block. -/
theorem free_ends {s : HeapState} {b : Block} {bs₁ bs₂ : List Block} {pre post : List Chunk}
    {c : Chunk} {fuel x ptr hdrVar : ℕ} (h : HeapInv s (bs₁ ++ b :: bs₂))
    (hb : b.chunks = pre ++ c :: post) (hx : x = stop Chunk.len (b.addr + 20) pre)
    (hp : ptr = x + 8) (hin : x + 8 + c.size ≤ b.addr + b.size) (hlt : ptr < b.addr + b.size)
    (hfuel : (bs₁ ++ b :: bs₂).length < fuel) : ∃ s', kHeapLCABFree fuel s hdrVar ptr = some s' := by
  have hbat := h.blocks.mem b (by simp)
  obtain ⟨-, hxlo⟩ := hdrAt_split hbat hb hx
  have hlim := hbat.fits
  have hhdr : sub32 ptr 8 = x := by rw [hp, sub32_of_le (by omega) (by omega)]; omega
  have h0 := unflag_heapInv h hb hx hin
  unfold kHeapLCABFree
  simp only [hhdr]
  rcases freeFind_linked ptr (fun d hd => ⟨hd.addr_pos, hd.size_eq, hd.fits⟩)
    (blocksAt_iff.mp h0.blocks) (by simpa using hfuel) with ⟨-, hnone⟩ | ⟨d, -, hfind, -⟩
  · exact absurd ⟨by simp only; omega, hlt⟩
      (hnone _ (List.mem_append_right _ List.mem_cons_self))
  · rw [hfind]
    exact ⟨_, rfl⟩

/-- What a call changes: metadata of the block, the word behind it, and bytes outside `K`. -/
theorem free_only {K : ℕ → Prop} {s s' : HeapState} {b : Block} {bs₁ bs₂ : List Block}
    {pre post : List Chunk} {c : Chunk} {fuel x ptr hdrVar : ℕ}
    (h : HeapInv s (bs₁ ++ b :: bs₂)) (hb : b.chunks = pre ++ c :: post)
    (hx : x = stop Chunk.len (b.addr + 20) pre) (hp : ptr = x + 8)
    (hin : x + 8 + c.size ≤ b.addr + b.size) (hK : ∀ y, b.Has y → K y)
    (hmiss : ptr < b.addr + b.size → FreeMisses K (freeUnflag s x) b.addr x hdrVar)
    (hs : kHeapLCABFree fuel s hdrVar ptr = some s') :
    Mem.Only (fun y => b.Meta y ∨ InWord (b.addr + b.size) y ∨ ¬ K y) s.mem s'.mem := by
  obtain ⟨hlt, hs, h0⟩ := free_eq_freeIn h hb hx hp hin hs
  obtain ⟨-, -, k3⟩ := clear_blockAt (h.blocks.mem b (by simp)) hb hx hin
  have hbat := h0.blocks.mem _ (List.mem_append_right _ List.mem_cons_self)
  obtain ⟨-, -, k6, -⟩ := freeIn_blockAt hbat rfl hx hin hK (hmiss hlt) hs
  exact (k3.mono fun y hy => .inl hy).trans (k6.mono fun y hy => hy.imp_left (meta_clear hb))

end Owmice.Heap
