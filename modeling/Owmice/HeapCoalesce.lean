import Owmice.HeapFit
import Owmice.HeapTags

/-! # Release on exactly tiled blocks

`k_heapLCABFree` is to turn the chunk of a live pointer into a free one, merged with its free
neighbours, and to touch nothing but the descriptors and the headers concerned (`Coalesced`).
The source looks for the header of the preceding chunk at the address of its own local
variable, less 8 and the tag.  So it never merges with a preceding chunk, and when the bytes
that it takes for a header do not look used, it writes to them.  The merge with the following
chunk writes a tag behind the block when that chunk is the last one.

* `FreeGood`: the condition on the state before the call;
* `free_coalesced_iff`: under it the call does what it is for, and no other call does, as long
  as what is taken for the preceding header lies outside the block;
* `free_misses_prev`: a call that leaves two free chunks side by side. -/

namespace Owmice.Heap

open Tiling

/-! ### What a release is for -/

/-- The chunks that start at `x` and below `lim` have the sizes of their predecessors as tags,
the first one the tag `n`. -/
def TagsFrom (lim : ℕ) : ℕ → ℕ → List Chunk → Prop
  | _, _, [] => True
  | x, n, c :: cs => (x < lim → c.prev = n) ∧ TagsFrom lim (x + c.len) c.size cs

/-- Every header of the block has the size of the chunk before it as its tag, the first one
has 0. -/
def Block.Chained (b : Block) : Prop := TagsFrom (b.addr + b.size) (b.addr + 20) 0 b.chunks

/-- The chunk `q` swallows the one behind it. -/
def Chunk.swallow (q : Chunk) : List Chunk → List Chunk
  | [] => [q]
  | c :: cs => ⟨q.prev, q.size + 8 + c.size, false⟩ :: relink (q.size + 8 + c.size) cs

/-- The chunks of a block after the release of `c` between `pre` and `post`: `c` is free and
merged with its free neighbours. -/
def released (pre : List Chunk) (c : Chunk) (post : List Chunk) : List Chunk :=
  match pre.getLast? with
  | none => c.clear.coalesce post
  | some q =>
      if q.used then pre ++ c.clear.coalesce post
      else pre.dropLast ++ q.swallow (c.clear.coalesce post)

/-- Where the chunk behind the merged one starts. -/
def mergedEnd (x : ℕ) (c : Chunk) : List Chunk → ℕ
  | [] => x + c.len
  | d :: _ => if d.used then x + c.len else x + c.len + d.len

/-- The bytes that a release may change: the descriptor of the block, and the headers of the
chunk, of a free chunk before it and of the chunk behind the merged one. -/
def Touches (b : Block) (pre : List Chunk) (c : Chunk) (post : List Chunk) (y : ℕ) : Prop :=
  (b.addr ≤ y ∧ y < b.addr + 20) ∨
    (stop Chunk.len (b.addr + 20) pre ≤ y ∧ y < stop Chunk.len (b.addr + 20) pre + 8) ∨
    (∃ q ∈ pre.getLast?, q.used = false ∧
      stop Chunk.len (b.addr + 20) pre.dropLast ≤ y ∧
        y < stop Chunk.len (b.addr + 20) pre.dropLast + 8) ∨
    (mergedEnd (stop Chunk.len (b.addr + 20) pre) c post < b.addr + b.size ∧
      mergedEnd (stop Chunk.len (b.addr + 20) pre) c post ≤ y ∧
        y < mergedEnd (stop Chunk.len (b.addr + 20) pre) c post + 8)

/-- The chunk `c` between `pre` and `post` in the block `b` between `bs₁` and `bs₂` has been
released as it should be. -/
structure Coalesced (s : HeapState) (bs₁ : List Block) (b : Block) (bs₂ : List Block)
    (pre : List Chunk) (c : Chunk) (post : List Chunk) (s' : HeapState) : Prop where
  tiled : TiledHeap s' (bs₁ ++ { b with used := hbUsed s'.mem b.addr
                                        chunks := released pre c post } :: bs₂)
  tags : Block.Chained { b with chunks := released pre c post }
  only : Mem.Only (Touches b pre c post) s.mem s'.mem

/-- The condition on the state before the call: the payload starts inside the block; a free
chunk behind makes a merged size below `2 ^ 31`, and the word behind the block has it already
if that chunk is the last one; no free chunk lies before; and the merge with what the source
takes for the preceding chunk is not taken. -/
structure FreeGood (s : HeapState) (b : Block) (pre : List Chunk) (c : Chunk) (post : List Chunk)
    (hdrVar : ℕ) : Prop where
  inside : stop Chunk.len (b.addr + 20) pre + 8 < b.addr + b.size
  next : ∀ d rest, post = d :: rest → d.used = false → c.size + 8 + d.size < 2147483648 ∧
    (rest = [] → s.mem.read32 (b.addr + b.size) = c.size + 8 + d.size)
  prev : ∀ q ∈ pre.getLast?, q.used = true
  idle : FreeIdle (freeUnflag s (stop Chunk.len (b.addr + 20) pre)) b.addr
    (stop Chunk.len (b.addr + 20) pre) hdrVar

/-! ### The list of chunks -/

theorem released_concat (pre : List Chunk) (q c : Chunk) (post : List Chunk) :
    released (pre ++ [q]) c post =
      if q.used then pre ++ [q] ++ c.clear.coalesce post
      else pre ++ q.swallow (c.clear.coalesce post) := by
  simp [released]

/-- Without a free chunk before it, the released chunk merges at most with the one behind. -/
theorem released_of_prev {pre post : List Chunk} {c : Chunk}
    (h : ∀ q ∈ pre.getLast?, q.used = true) :
    released pre c post = pre ++ c.clear.coalesce post := by
  rcases List.eq_nil_or_concat pre with rfl | ⟨pre', q, rfl⟩
  · rfl
  · rw [List.concat_eq_append] at h ⊢
    rw [released_concat, if_pos (h q (by simp))]

theorem tagsFrom_append {lim : ℕ} (cs : List Chunk) {ds : List Chunk} {x n : ℕ} :
    TagsFrom lim x n (cs ++ ds) ↔
      TagsFrom lim x n cs ∧ TagsFrom lim (stop Chunk.len x cs) (lastSize n cs) ds := by
  induction cs generalizing x n with
  | nil => simp [TagsFrom, lastSize]
  | cons c cs ih =>
      simp only [List.cons_append, TagsFrom, stop_cons, lastSize, ih, and_assoc]

theorem tagsFrom_relink {lim x n k : ℕ} :
    ∀ {cs : List Chunk}, TagsFrom lim x k cs → TagsFrom lim x n (relink n cs)
  | [], _ => trivial
  | _ :: _, h => ⟨fun _ => rfl, h.2⟩

/-- The release of a chunk, with or without a merge, leaves the tags correct. -/
theorem tagsFrom_coalesce {lim x n : ℕ} {c : Chunk} :
    ∀ {post : List Chunk}, TagsFrom lim x n (c :: post) →
      TagsFrom lim x n (c.clear.coalesce post)
  | [], h => ⟨h.1, trivial⟩
  | d :: post, h => by
      simp only [Chunk.coalesce]
      split
      · exact ⟨h.1, h.2⟩
      · refine ⟨h.1, tagsFrom_relink (k := d.size) ?_⟩
        rw [Chunk.add_len_merged]
        exact h.2.2

theorem tagsFrom_swallow {lim x n : ℕ} {q : Chunk} {cs : List Chunk}
    (h : TagsFrom lim x n (q :: cs)) : TagsFrom lim x n (q.swallow cs) := by
  cases cs with
  | nil => exact h
  | cons c cs =>
      refine ⟨h.1, tagsFrom_relink (k := c.size) ?_⟩
      have hstop : x + Chunk.len ⟨q.prev, q.size + 8 + c.size, false⟩ = x + q.len + c.len := by
        simp only [Chunk.len]
        omega
      rw [hstop]
      exact h.2.2

/-- A release keeps the tags correct. -/
theorem chained_released {b : Block} {pre post : List Chunk} {c : Chunk} (h : b.Chained)
    (hch : b.chunks = pre ++ c :: post) :
    Block.Chained { b with chunks := released pre c post } := by
  simp only [Block.Chained, hch] at h ⊢
  rcases List.eq_nil_or_concat pre with rfl | ⟨pre', q, rfl⟩
  · exact tagsFrom_coalesce h
  · rw [List.concat_eq_append] at h ⊢
    rw [released_concat]
    split
    · rw [tagsFrom_append] at h ⊢
      exact ⟨h.1, tagsFrom_coalesce h.2⟩
    · rw [List.append_assoc, tagsFrom_append] at h
      rw [tagsFrom_append]
      exact ⟨h.1, tagsFrom_swallow ⟨h.2.1, tagsFrom_coalesce h.2.2⟩⟩

theorem mergedEnd_clear (x : ℕ) (c : Chunk) (post : List Chunk) :
    mergedEnd x c.clear post = mergedEnd x c post := by
  cases post with
  | nil => rfl
  | cons d post => rfl

/-! ### The phases of a release on a tiled block -/

namespace TiledAt

variable {m : Mem} {b : Block}

/-- Writes to the counters of the descriptor, or outside the block. -/
theorem descriptor (h : TiledAt m b) {m' : Mem} (hm : Mem.Only (BlockAt.Rewrites b 0 0) m m') :
    TiledAt m' { b with used := hbUsed m' b.addr } ∧ hbNext m' b.addr = hbNext m b.addr := by
  have hb : b.chunks = b.chunks ++ ([] ++ []) := by simp
  have := h.replace [] [] hb rfl rfl rfl (hm.mono fun _ => BlockAt.Rewrites.counters) (by simp)
  simpa using this

variable {pre post : List Chunk} {c d : Chunk} {x : ℕ}

/-- Clearing the used flag, and any change of the counter. -/
theorem clear (h : TiledAt m b) (hb : b.chunks = pre ++ c :: post)
    (hx : x = stop Chunk.len (b.addr + 20) pre) {m' : Mem}
    (hm : Mem.Only (fun y => b.addr + 4 ≤ y ∧ y < b.addr + 8) (m.write32 (x + 4) c.size) m') :
    TiledAt m' { b with used := hbUsed m' b.addr, chunks := pre ++ c.clear :: post } ∧
      hbNext m' b.addr = hbNext m b.addr := by
  obtain ⟨hc, hlo, hhi⟩ := h.split hb hx
  have hfit := h.fits
  rw [Chunk.len] at hhi
  have hin := hc.inside
  refine h.replace [c] [c.clear] hb hx rfl rfl ?_ ?_
  · refine Mem.Only.trans ((Mem.Only.refl _ _).write32 _ fun y hy => .inr (.inr (.inl ?_)))
      (hm.mono fun y hy => .inl hy)
    have := hy.le_lt (by omega)
    simp only [stop_cons, stop_nil, Chunk.len]
    omega
  · simp only [placed_cons, placed_nil, List.forall_mem_cons]
    refine ⟨(clear_hdr hc hfit (by omega)).congr hfit.le fun y h1 h2 => hm y fun hy => ?_, by simp⟩
    omega

/-- The merge with a following chunk that is not the last one of the block, or behind which the
word is already the merged size. -/
theorem merge (h : TiledAt m b) (hb : b.chunks = pre ++ c :: d :: post)
    (hx : x = stop Chunk.len (b.addr + 20) pre) (hd0 : d.used = false) {n : ℕ}
    (hn : n = c.size + 8 + d.size) (hnlt : n < 2147483648)
    (hend : post = [] → m.read32 (b.addr + b.size) = n) (u : ℕ) :
    TiledAt (forwardMem m b x n u)
        { b with used := hbUsed (forwardMem m b x n u) b.addr
                 chunks := pre ++ c.coalesce (d :: post) } ∧
      hbNext (forwardMem m b x n u) b.addr = hbNext m b.addr ∧
      Mem.Only (fun y => (b.addr + 4 ≤ y ∧ y < b.addr + 8) ∨ (x ≤ y ∧ y < x + 8) ∨
        (x + 8 + n < b.addr + b.size ∧ x + 8 + n ≤ y ∧ y < x + 8 + n + 8)) m
        (forwardMem m b x n u) := by
  obtain ⟨hc, hxlo, -⟩ := h.split hb hx
  have hb' : b.chunks = (pre ++ [c]) ++ d :: post := by simpa using hb
  obtain ⟨hd, -, -⟩ := h.split hb' (x := x + c.len) (by simp [stop_append, hx])
  have hlim := h.fits
  have hstop := h.stop_eq
  have hco : c.coalesce (d :: post) = ⟨c.prev, n, false⟩ :: relink n post := by
    simp [Chunk.coalesce, hd0, hn]
  rw [hco, ← and_assoc]
  cases post with
  | nil =>
      simp only [hb, stop_append, ← hx, stop_cons, stop_nil, Chunk.len] at hstop
      have hzlim : x + 8 + n = b.addr + b.size := by omega
      have hin := hc.inside
      have hbehind : ∀ y, InWord (x + 8 + n) y → ¬ (b.addr + 4 ≤ y ∧ y < x + 8) := by
        intro y hy hy'
        simp only [InWord, w32] at hy
        have := h.addr_pos
        omega
      -- the last write changes nothing
      obtain ⟨m₂, hm₂⟩ : ∃ m₂, m₂ = (m.write32 (x + 4) n).write32 (b.addr + 4) u := ⟨_, rfl⟩
      have honly : Mem.Only (fun y => (b.addr + 4 ≤ y ∧ y < b.addr + 8) ∨ (x ≤ y ∧ y < x + 8))
          m m₂ := by
        rw [hm₂]
        refine ((Mem.Only.refl _ _).write32 _ fun y hy => ?_).write32 _ fun y hy => ?_
        all_goals
          have := hy.le_lt (by omega)
          omega
      have hsame : forwardMem m b x n u = m₂ := by
        have hread : m₂.read32 (x + 8 + n) = n := by
          rw [honly.read32 fun y hy hy' => hbehind y hy (by omega), hzlim, hend rfl]
        have := m₂.write32_read32 (x + 8 + n)
        rw [hread, hm₂] at this
        rw [hm₂]
        exact this
      have hmerged := merge_hdr hc hlim hxlo u hd hd0 hn hnlt fun y h1 h2 hy =>
        hbehind y hy (by omega)
      rw [hsame] at hmerged ⊢
      refine ⟨h.replace [c, d] [⟨c.prev, n, false⟩] hb hx rfl ?_ ?_ ?_, ?_⟩
      · simp only [stop_cons, stop_nil, Chunk.len]
        omega
      · refine honly.mono fun y hy => hy.imp id fun hy => .inr (.inl ?_)
        simp only [stop_cons, stop_nil, Chunk.len]
        omega
      · simp only [placed_cons, placed_nil, List.forall_mem_cons]
        exact ⟨hmerged, by simp⟩
      · exact honly.mono fun y hy => hy.imp id .inl
  | cons e post =>
      have hb'' : b.chunks = (pre ++ [c, d]) ++ e :: post := by simpa using hb
      obtain ⟨he, -, hehi⟩ := h.split hb'' (x := x + 8 + n) (by
        simp only [stop_append, ← hx, stop_cons, stop_nil, Chunk.len]
        omega)
      have hein := he.inside
      have hword : ∀ y, InWord (x + 8 + n) y → x + 8 + n ≤ y ∧ y < x + 8 + n + 4 :=
        fun y hy => hy.le_lt (by omega)
      obtain ⟨hextent, hrewrites, hhdrs⟩ := merge_stretch hc hlim hxlo u rfl hd he hd0 hn hnlt
      refine ⟨h.replace [c, d, e] (⟨c.prev, n, false⟩ :: [{ e with prev := n }]) hb hx rfl
        hextent hrewrites hhdrs, ?_⟩
      refine forwardMem_only hc hlim hxlo u (fun y h1 h2 => .inr (.inl ⟨by omega, h2⟩))
        (fun y h1 h2 => .inl ⟨h1, h2⟩) fun y hy => .inr (.inr ?_)
      have := hword y hy
      omega

/-- What the forward phase leaves of a tiled block. -/
theorem forward {s : HeapState} (h : TiledAt s.mem b) (hb : b.chunks = pre ++ c :: post)
    (hx : x = stop Chunk.len (b.addr + 20) pre)
    (hnext : ∀ d rest, post = d :: rest → d.used = false → c.size + 8 + d.size < 2147483648 ∧
      (rest = [] → s.mem.read32 (b.addr + b.size) = c.size + 8 + d.size)) {s' : HeapState}
    (hs' : s' = afterForward s b x c post) :
    TiledAt s'.mem { b with used := hbUsed s'.mem b.addr, chunks := pre ++ c.coalesce post } ∧
      hbNext s'.mem b.addr = hbNext s.mem b.addr ∧
      Mem.Only (fun y => (b.addr + 4 ≤ y ∧ y < b.addr + 8) ∨ (x ≤ y ∧ y < x + 8) ∨
        (mergedEnd x c post < b.addr + b.size ∧ mergedEnd x c post ≤ y ∧
          y < mergedEnd x c post + 8)) s.mem s'.mem ∧ s'.heap.fblock = s.heap.fblock := by
  have hsame : ∀ cs, b.chunks = cs →
      TiledAt s.mem { b with used := hbUsed s.mem b.addr, chunks := cs } := by
    rintro cs rfl
    rw [h.used_eq]
    exact h
  subst hs'
  cases post with
  | nil => exact ⟨hsame _ hb, rfl, .refl _ _, rfl⟩
  | cons d post =>
      simp only [afterForward, mergedEnd]
      by_cases hd0 : d.used = true
      · simp only [hd0, if_true]
        refine ⟨hsame _ ?_, trivial, .refl _ _, trivial⟩
        simp [hb, Chunk.coalesce, hd0]
      · simp only [Bool.not_eq_true] at hd0
        simp only [hd0, Bool.false_eq_true, if_false]
        obtain ⟨hnlt, hend⟩ := hnext d post rfl hd0
        obtain ⟨h1, h2, h3⟩ := h.merge hb hx hd0 rfl hnlt hend (sub32 (hbUsed s.mem b.addr) 8)
        refine ⟨h1, h2, h3.mono fun y hy => ?_, trivial⟩
        simp only [Chunk.len]
        omega

/-- A release touches bytes of the block only. -/
theorem has_of_touches (h : TiledAt m b) (hch : b.chunks = pre ++ c :: post) {y : ℕ}
    (hy : Touches b pre c post y) : b.Has y := by
  have hge := h.size_ge
  have hstop := h.stop_eq
  obtain ⟨hc, hlo, -⟩ := h.split hch rfl
  have hcin := hc.inside
  rcases hy with hy | hy | ⟨q, hq, -, hy⟩ | ⟨hlt, hy⟩
  · exact ⟨hy.1, by omega⟩
  · exact ⟨by omega, by omega⟩
  · rcases List.eq_nil_or_concat pre with rfl | ⟨pre', q', rfl⟩
    · simp at hq
    · rw [List.concat_eq_append] at hch hy
      obtain ⟨hq', hqlo, -⟩ := h.split (hch.trans (List.append_assoc pre' [q'] _)) rfl
      have hqin := hq'.inside
      simp only [List.dropLast_concat] at hy
      exact ⟨by omega, by omega⟩
  · have hhdr : ∃ e, HdrAt m (b.addr + b.size)
        (mergedEnd (stop Chunk.len (b.addr + 20) pre) c post) e ∧
          b.addr + 20 ≤ mergedEnd (stop Chunk.len (b.addr + 20) pre) c post := by
      cases post with
      | nil =>
          simp only [hch, stop_append, stop_cons, stop_nil] at hstop
          simp only [mergedEnd] at hlt
          omega
      | cons d post =>
          have hd := h.split (show b.chunks = (pre ++ [c]) ++ d :: post by simp [hch])
            (show stop Chunk.len (b.addr + 20) pre + c.len = _ by simp [stop_append])
          simp only [mergedEnd] at hlt ⊢
          split at hlt
          · rename_i hd0
            rw [if_pos hd0]
            exact ⟨d, hd.1, hd.2.1⟩
          · rename_i hd0
            rw [if_neg hd0]
            cases post with
            | nil =>
                simp only [hch, stop_append, stop_cons, stop_nil] at hstop
                omega
            | cons e post =>
                have he := h.split (show b.chunks = (pre ++ [c, d]) ++ e :: post by simp [hch])
                  (show stop Chunk.len (b.addr + 20) pre + c.len + d.len = _ by
                    simp [stop_append])
                exact ⟨e, he.1, he.2.1⟩
    obtain ⟨e, he, helo⟩ := hhdr
    have hein := he.inside
    exact ⟨by omega, by omega⟩

end TiledAt

/-! ### Finding the block -/

/-- A pointer behind the start of a tiled block is found in it, or behind it. -/
theorem TiledHeap.freeFind {s : HeapState} {bs₁ bs₂ : List Block} {b : Block} {ptr fuel : ℕ}
    (h : TiledHeap s (bs₁ ++ b :: bs₂)) (hfuel : (bs₁ ++ b :: bs₂).length < fuel)
    (hlo : b.addr < ptr) (hhi : ptr ≤ b.addr + b.size) :
    Heap.freeFind s.mem ptr fuel s.heap.fblock =
      if ptr < b.addr + b.size then some b.addr else none := by
  have hother : ∀ d ∈ bs₁ ++ bs₂, ¬ (d.addr < ptr ∧ ptr < d.addr + d.size) := by
    rintro d hd ⟨h1, h2⟩
    exact h.others d hd (ptr - 1) ⟨by omega, by omega⟩ ⟨by omega, by omega⟩
  have hone : ∀ d ∈ bs₁ ++ b :: bs₂, d.addr < ptr ∧ ptr < d.addr + d.size → d = b := by
    intro d hd hin
    have hd' : d = b ∨ d ∈ bs₁ ++ bs₂ := by
      simp only [List.mem_append, List.mem_cons] at hd ⊢
      tauto
    exact hd'.resolve_right fun hd' => hother d hd' hin
  rcases freeFind_linked ptr (fun b hb => ⟨hb.addr_pos, hb.size_eq, hb.fits⟩) h.blocks hfuel with
    ⟨h1, h2⟩ | ⟨d, hd, h1, h2⟩
  · rw [h1, if_neg fun hlt => h2 b (by simp) ⟨hlo, hlt⟩]
  · obtain rfl := hone d hd h2
    rw [h1, if_pos h2.2]

/-! ### The whole call -/

section call

variable {s : HeapState} {bs₁ bs₂ : List Block} {b : Block} {pre post : List Chunk} {c : Chunk}
  {x hdrVar fuel : ℕ}

/-- The state after the flag and the counters have been cleared. -/
theorem freeClear_unflag {lim hb : ℕ} (hc : HdrAt s.mem lim x c) (hlim : lim < 4294967296)
    (hin : x + 8 + c.size ≤ lim) (hlo : hb + 20 ≤ x) :
    ∃ u, (freeClear (freeUnflag s x) hb x).mem =
        (s.mem.write32 (x + 4) c.size).write32 (hb + 4) u ∧
      (freeClear (freeUnflag s x) hb x).heap.fblock = s.heap.fblock := by
  have hm : (freeUnflag s x).mem = s.mem.write32 (x + 4) c.size := by
    rw [freeUnflag, clear_flagsize hc, HeapState.setFlagsize_mem]
  have hcc : HdrAt (freeUnflag s x).mem lim x c.clear := hm ▸ clear_hdr hc hlim hin
  rw [freeClear_eq hcc hlim hlo, hm]
  refine ⟨_, by rw [show c.clear.size = c.size from rfl, Mem.write32_write32], ?_⟩
  simp [freeUnflag]

/-- The call finds the block unless the payload starts where the block ends. -/
theorem free_tiled (h : TiledHeap s (bs₁ ++ b :: bs₂)) (hch : b.chunks = pre ++ c :: post)
    (hx : x = stop Chunk.len (b.addr + 20) pre) (hfuel : (bs₁ ++ b :: bs₂).length < fuel) :
    kHeapLCABFree fuel s hdrVar (x + 8) =
      if x + 8 < b.addr + b.size then some (freeIn (freeUnflag s x) b.addr x hdrVar)
      else none := by
  have hat : TiledAt s.mem b := h.at_mem (by simp)
  obtain ⟨hc, hlo, hhi⟩ := hat.split hch hx
  have hfit := hat.fits
  rw [Chunk.len] at hhi
  have hm : (freeUnflag s x).mem = s.mem.write32 (x + 4) c.size := by
    rw [freeUnflag, clear_flagsize hc, HeapState.setFlagsize_mem]
  have hsub : sub32 (x + 8) 8 = x := by
    rw [sub32_of_le (by omega) (by omega)]
    omega
  -- the heap in which the block is looked for
  have hkeep : Mem.Only (fun y => b.addr + 4 ≤ y ∧ y < b.addr + 8) (s.mem.write32 (x + 4) c.size)
      (freeUnflag s x).mem := hm ▸ .refl _ _
  obtain ⟨k1, k2⟩ := hat.clear hch hx hkeep
  have h0 : TiledHeap (freeUnflag s x) (bs₁ ++ { b with
      used := hbUsed (freeUnflag s x).mem b.addr, chunks := pre ++ c.clear :: post } :: bs₂) := by
    refine h.update rfl rfl k1 k2 (by simp [freeUnflag]) fun d hd y hy => ?_
    rw [hm]
    refine Mem.write32_outside _ _ (by omega) ?_
    by_contra hin
    exact h.others d hd y ⟨by omega, by omega⟩ hy
  have hfind : freeFind (freeUnflag s x).mem (x + 8) fuel (freeUnflag s x).heap.fblock = _ :=
    h0.freeFind (by simpa using hfuel) (by simp only; omega) (by simp only; omega)
  simp only [kHeapLCABFree, hsub]
  rw [hfind]
  by_cases hlt : x + 8 < b.addr + b.size
  · simp only [hlt, if_true]
  · simp only [hlt, if_false]

/-- Behind the size of the chunk, the first phases write the counter of the block only. -/
theorem freeClear_only (hat : TiledAt s.mem b) (hch : b.chunks = pre ++ c :: post)
    (hx : x = stop Chunk.len (b.addr + 20) pre) :
    Mem.Only (fun y => b.addr + 4 ≤ y ∧ y < b.addr + 8) (s.mem.write32 (x + 4) c.size)
      (freeClear (freeUnflag s x) b.addr x).mem := by
  obtain ⟨hc, hlo, hhi⟩ := hat.split hch hx
  have hfit := hat.fits
  rw [Chunk.len] at hhi
  obtain ⟨u, hm, -⟩ := freeClear_unflag hc hfit (by omega) hlo
  rw [hm]
  refine (Mem.Only.refl _ _).write32 _ fun y hy => ?_
  have := hy.le_lt (by omega)
  omega

/-- The state in which the merge with the preceding chunk is tried. -/
theorem afterForward_tiled (h : TiledHeap s (bs₁ ++ b :: bs₂)) (hch : b.chunks = pre ++ c :: post)
    (hx : x = stop Chunk.len (b.addr + 20) pre) {s₁ : HeapState}
    (hs₁ : s₁ = freeClear (freeUnflag s x) b.addr x) :
    freeForward s₁ b.addr x (freeNhdr s₁.mem b.addr x) = afterForward s₁ b x c.clear post := by
  have hat : TiledAt s.mem b := h.at_mem (by simp)
  obtain ⟨-, hlo, -⟩ := hat.split hch hx
  have hfit := hat.fits
  have hm₁ := freeClear_only hat hch hx
  rw [← hs₁] at hm₁
  obtain ⟨k1, -⟩ := hat.clear hch hx hm₁
  have hsplit := k1.split rfl hx
  refine freeForward_eq hsplit.1 rfl hfit k1.size_eq hlo ?_ ?_
  · rintro rfl
    have hstop := k1.stop_eq
    simp only [stop_append, ← hx, stop_cons, stop_nil] at hstop
    exact hstop.ge
  · intro d hd
    cases post with
    | nil => simp at hd
    | cons e post =>
        obtain rfl : e = d := by simpa using hd
        refine (k1.split (show _ = (pre ++ [c.clear]) ++ e :: post by simp) ?_).1
        simp [stop_append, ← hx]

/-- Under the condition the call does what it is for. -/
theorem freeIn_coalesced (h : TiledHeap s (bs₁ ++ b :: bs₂)) (hchain : b.Chained)
    (hch : b.chunks = pre ++ c :: post) (hgood : FreeGood s b pre c post hdrVar)
    (hx : x = stop Chunk.len (b.addr + 20) pre) :
    Coalesced s bs₁ b bs₂ pre c post (freeIn (freeUnflag s x) b.addr x hdrVar) := by
  have hat : TiledAt s.mem b := h.at_mem (by simp)
  obtain ⟨hc, hlo, hhi⟩ := hat.split hch hx
  have hfit := hat.fits
  rw [Chunk.len] at hhi
  obtain ⟨-, hnext, hprev, hidle⟩ := hgood
  rw [← hx] at hidle
  -- clearing
  obtain ⟨-, -, hf⟩ := freeClear_unflag hc hfit (by omega) hlo
  have hm₁ := freeClear_only hat hch hx
  have hfwd := afterForward_tiled h hch hx rfl
  obtain ⟨s₁, hs₁⟩ : ∃ s₁, s₁ = freeClear (freeUnflag s x) b.addr x := ⟨_, rfl⟩
  rw [← hs₁] at hm₁ hf hfwd
  have honly₁ : Mem.Only (fun y => (b.addr + 4 ≤ y ∧ y < b.addr + 8) ∨ (x ≤ y ∧ y < x + 8))
      s.mem s₁.mem := by
    refine Mem.Only.trans ((Mem.Only.refl _ _).write32 _ fun y hy => ?_) (hm₁.mono fun y => .inl)
    have := hy.le_lt (by omega)
    omega
  obtain ⟨k1, k2⟩ := hat.clear hch hx hm₁
  -- merging forward
  have hnext₁ : ∀ d rest, post = d :: rest → d.used = false →
      c.clear.size + 8 + d.size < 2147483648 ∧
        (rest = [] → s₁.mem.read32 (b.addr + b.size) = c.clear.size + 8 + d.size) := by
    intro d rest hpost hd0
    obtain ⟨h1, h2⟩ := hnext d rest hpost hd0
    refine ⟨h1, fun hr => ?_⟩
    rw [honly₁.read32 fun y hy hy' => ?_, h2 hr]
    · rfl
    · simp only [InWord, w32] at hy
      have := hat.addr_pos
      have := hc.inside
      omega
  obtain ⟨s₂, hs₂⟩ : ∃ s₂, s₂ = afterForward s₁ b x c.clear post := ⟨_, rfl⟩
  obtain ⟨k3, k4, k5, k6⟩ := k1.forward rfl hx hnext₁ hs₂
  rw [← hs₂] at hfwd
  -- no merge backward, and the note
  have hfin : freeIn (freeUnflag s x) b.addr x hdrVar = freeNote s₂ b.addr x := by
    simp only [freeIn, ← hs₁, hfwd]
    rw [freeBackward_idle]
    intro hne
    have := hidle (by rwa [← hs₁])
    simpa only [← hs₁, hfwd] using this
  obtain ⟨k7, k8⟩ := freeNote_only (s := s₂) (show b.addr + 20 ≤ 4294967296 by omega) x
  obtain ⟨k9, k10⟩ := k3.descriptor (k7.mono fun y hy => .inr (.inl hy))
  rw [hfin]
  have honly : Mem.Only (Touches b pre c post) s.mem (freeNote s₂ b.addr x).mem := by
    refine (honly₁.mono fun y hy => ?_).trans ((k5.mono fun y hy => ?_).trans
      (k7.mono fun y hy => ?_))
    · simp only [Touches, ← hx]
      omega
    · rw [mergedEnd_clear] at hy
      simp only [Touches, ← hx] at hy ⊢
      omega
    · exact .inl ⟨by omega, hy.2⟩
  refine ⟨?_, chained_released hchain hch, honly⟩
  rw [released_of_prev hprev]
  refine h.update rfl rfl k9 (k10.trans (k4.trans k2)) ?_ fun d hd y hy => honly y fun hy' => ?_
  · rw [k8, k6, hf]
  · exact h.others d hd y (hat.has_of_touches hch hy') hy

end call

/-! ### Calls that do something else -/

/-- The merge with what is taken for the preceding chunk leaves a word changed that it has no
business with: the size it writes differs from the one it finds, and the tag it writes behind
the supposed chunk does not restore it. -/
theorem freeBackward_breaks {s : HeapState} {phdr : ℕ} (hb hdr : ℕ) (hne : phdr ≠ 0)
    (hfree : flagsize s.mem phdr < 2147483648) (hsize : flagsize s.mem hdr + 8 < 4294967296)
    (hused : ∀ y, InWord (phdr + 4) y → ¬ InWord (hb + 4) y) :
    ∃ y, InWord (phdr + 4) y ∧ (freeBackward s hb hdr phdr).2.mem y ≠ s.mem y := by
  by_contra hall
  simp only [not_exists, not_and, not_not] at hall
  obtain ⟨v, hv⟩ : ∃ v, v = w32 (flagsize s.mem phdr + 8 + flagsize s.mem hdr) := ⟨_, rfl⟩
  have hvlt : v < 4294967296 := hv ▸ w32_lt _
  have hvne : v ≠ flagsize s.mem phdr := by
    rw [hv]
    simp only [w32]
    omega
  -- the state after the size and the counters have been written
  obtain ⟨s₁, hs₁⟩ : ∃ s₁, s₁ = (s.setFlagsize phdr
      (flagsize s.mem phdr + 8 + flagsize s.mem hdr)).subUsed hb 8 := ⟨_, rfl⟩
  have hread : s₁.mem.read32 (phdr + 4) = v := by
    rw [hs₁, HeapState.subUsed_mem, (Mem.only_write32 _ _ _).read32 hused,
      HeapState.setFlagsize_mem, Mem.read32_write32, hv]
  have hback : (freeBackward s hb hdr phdr).2 =
      if w32 (phdr + 8 + v) < w32 (hb + 20 + hbSize s₁.mem hb) then
        s₁.setPrevsize (w32 (phdr + 8 + v)) v else s₁ := by
    simp only [freeBackward, hne, hfree, ne_eq, not_false_eq_true, and_self, if_true, ← hs₁]
    simp only [flagsize, hread]
    split <;> rfl
  have hword : (freeBackward s hb hdr phdr).2.mem.read32 (phdr + 4) = flagsize s.mem phdr :=
    Mem.read32_congr hall
  rw [hback] at hall hword
  split at hword
  case isFalse => exact hvne (hread.symm.trans hword)
  case isTrue hlt =>
    rw [if_pos hlt] at hall
    rw [HeapState.setPrevsize_mem] at hall hword
    -- the top byte of the word: it was below 128
    have htop := hall (w32 (phdr + 4 + 3)) (.inr (.inr (.inr rfl)))
    have hold : (s.mem (w32 (phdr + 4 + 3))).toNat < 128 := by
      rw [Mem.toNat_top]
      simp only [flagsize] at hfree
      omega
    rw [← htop] at hold
    by_cases hin : InWord (w32 (phdr + 8 + v)) (w32 (phdr + 4 + 3))
    · -- the tag covers it, with a byte of a size close to `2 ^ 32`
      have hbytes : ∀ i < 4, w32 (phdr + 4 + 3) = w32 (w32 (phdr + 8 + v) + i) →
          v = 4294967295 - i := by
        intro i hi he
        simp only [w32] at he
        omega
      simp only [Mem.write32] at hold
      simp only [InWord] at hin
      split_ifs at hold with h0 h1 h2 h3
      · have := hbytes 0 (by decide) (by simpa using h0)
        rw [UInt8.toNat_ofNat'] at hold
        omega
      · have := hbytes 1 (by decide) h1
        rw [UInt8.toNat_ofNat'] at hold
        omega
      · have := hbytes 2 (by decide) h2
        rw [UInt8.toNat_ofNat'] at hold
        omega
      · have := hbytes 3 (by decide) h3
        rw [UInt8.toNat_ofNat'] at hold
        omega
      · exact (hin.elim h0 fun h => h.elim h1 fun h => h.elim h2 h3).elim
    · -- otherwise the size is small, and the tag lies elsewhere
      rw [Mem.write32_of_not_inWord _ _ hin, Mem.toNat_top, hread] at hold
      refine hvne (Eq.trans ?_ hword)
      rw [(Mem.only_write32 _ _ _).read32, hread]
      intro y hy hy'
      simp only [InWord, w32] at hy hy'
      omega

section converse

variable {s : HeapState} {bs₁ bs₂ : List Block} {b : Block} {pre post : List Chunk} {c : Chunk}
  {x hdrVar fuel : ℕ}

/-- The bytes that the first two phases of a call write, and the size they leave. -/
theorem afterForward_only (h : TiledAt s.mem b) (hch : b.chunks = pre ++ c :: post)
    (hx : x = stop Chunk.len (b.addr + 20) pre) {s₁ : HeapState} {u : ℕ}
    (hm : s₁.mem = (s.mem.write32 (x + 4) c.size).write32 (b.addr + 4) u) :
    Mem.Only (fun y => (b.addr + 4 ≤ y ∧ y < b.addr + 8) ∨ (x ≤ y ∧ y < b.addr + b.size) ∨
        InWord (b.addr + b.size) y) s.mem (afterForward s₁ b x c.clear post).mem ∧
      flagsize (afterForward s₁ b x c.clear post).mem x + 28 < 4294967296 := by
  obtain ⟨hc, hlo, hhi⟩ := h.split hch hx
  have hfit := h.fits
  have hcsz := hc.size_lt
  rw [Chunk.len] at hhi
  have hword : ∀ a, (a = b.addr + 4 ∨ a = x + 4) → ∀ y, InWord a y →
      (b.addr + 4 ≤ y ∧ y < b.addr + 8) ∨ (x ≤ y ∧ y < b.addr + b.size) ∨
        InWord (b.addr + b.size) y := by
    intro a ha y hy
    have := hy.le_lt (by omega)
    omega
  have honly₁ : Mem.Only (fun y => (b.addr + 4 ≤ y ∧ y < b.addr + 8) ∨
      (x ≤ y ∧ y < b.addr + b.size) ∨ InWord (b.addr + b.size) y) s.mem s₁.mem := by
    rw [hm]
    exact ((Mem.Only.refl _ _).write32 _ (hword _ (.inr rfl))).write32 _ (hword _ (.inl rfl))
  have hflag₁ : flagsize s₁.mem x = c.size := by
    rw [hm]
    simp (disch := omega) only [flagsize, Mem.read32_write32_of_disjoint, Mem.read32_write32,
      w32_of_lt]
  cases post with
  | nil =>
      refine ⟨honly₁, ?_⟩
      simp only [afterForward, hflag₁]
      omega
  | cons d post =>
      obtain ⟨hd, -, hdhi⟩ := h.split (show b.chunks = (pre ++ [c]) ++ d :: post by simp [hch])
        (show x + c.len = _ by simp [stop_append, ← hx])
      have hdsz := hd.size_lt
      simp only [Chunk.len] at hdhi
      simp only [afterForward]
      by_cases hd0 : d.used = true
      · simp only [hd0, if_true]
        refine ⟨honly₁, ?_⟩
        rw [hflag₁]
        omega
      · simp only [Bool.not_eq_true] at hd0
        simp only [hd0, Bool.false_eq_true, if_false]
        obtain ⟨n, hn⟩ : ∃ n, n = c.clear.size + 8 + d.size := ⟨_, rfl⟩
        have hn' : n = c.size + 8 + d.size := hn
        rw [← hn]
        -- the tag behind the merged chunk is in the block or right behind it
        have htag : ∀ y, InWord (x + 8 + n) y → (x + 8 ≤ y ∧ y < b.addr + b.size) ∨
            InWord (b.addr + b.size) y := by
          intro y hy
          cases post with
          | nil =>
              have hstop := h.stop_eq
              simp only [hch, stop_append, ← hx, stop_cons, stop_nil, Chunk.len] at hstop
              exact .inr (show x + 8 + n = b.addr + b.size by omega ▸ hy)
          | cons e post =>
              obtain ⟨he, -, -⟩ := h.split
                (show b.chunks = (pre ++ [c, d]) ++ e :: post by simp [hch])
                (show x + c.len + d.len = _ by simp [stop_append, ← hx])
              have hein := he.inside
              simp only [Chunk.len] at hein
              have := hy.le_lt (by omega)
              exact .inl ⟨by omega, by omega⟩
        constructor
        · refine honly₁.trans (((Mem.Only.refl _ _).write32 _ (hword _ (.inr rfl))).write32 _
            (hword _ (.inl rfl)) |>.write32 _ fun y hy => ?_)
          rcases htag y hy with hy' | hy'
          · exact .inr (.inl ⟨by omega, hy'.2⟩)
          · exact .inr (.inr hy')
        · have hflag : flagsize (forwardMem s₁.mem b x n (sub32 (hbUsed s₁.mem b.addr) 8)) x =
              n := by
            rw [forwardMem, flagsize, (Mem.only_write32 _ _ _).read32 fun y hy hy' => ?_,
              Mem.read32_write32_of_disjoint _ _ (by omega) (by omega) (by omega),
              Mem.read32_write32, w32_of_lt (by omega)]
            have h1 := hy.le_lt (by omega)
            rcases htag y hy' with h2 | h2
            · omega
            · simp only [InWord, w32] at h2
              have := h.addr_pos
              omega
          rw [hflag]
          omega

/-- The bytes of the word behind a tiled block are outside it, or belong to its size. -/
theorem TiledAt.behind {m : Mem} (h : TiledAt m b) {y : ℕ} (hy : InWord (b.addr + b.size) y) :
    ¬ b.Has y ∨ InWord b.addr y := by
  have hfit := h.fits
  have hpos := h.addr_pos
  have hge := h.size_ge
  simp only [InWord, w32, Block.Has] at *
  omega

/-- The size in what the source takes for the header of the preceding chunk lies neither in the
block nor in the word behind it. -/
def PhdrOutside (s : HeapState) (b : Block) (x hdrVar : ℕ) : Prop :=
  freePhdr s.mem x hdrVar ≠ 0 → ∀ y, InWord (freePhdr s.mem x hdrVar + 4) y →
    ¬ b.Has y ∧ ¬ InWord (b.addr + b.size) y

/-- A call inside the block, up to the merge with the preceding chunk. -/
theorem free_phases (h : TiledHeap s (bs₁ ++ b :: bs₂)) (hch : b.chunks = pre ++ c :: post)
    (hx : x = stop Chunk.len (b.addr + 20) pre) (hdrVar : ℕ) :
    ∃ s₂, s₂ = afterForward (freeClear (freeUnflag s x) b.addr x) b x c.clear post ∧
      freeIn (freeUnflag s x) b.addr x hdrVar =
        freeNote (freeBackward s₂ b.addr x (freePhdr s.mem x hdrVar)).2 b.addr
          (freeBackward s₂ b.addr x (freePhdr s.mem x hdrVar)).1 ∧
      (FreeIdle (freeUnflag s x) b.addr x hdrVar ↔ (freePhdr s.mem x hdrVar ≠ 0 →
        2147483648 ≤ flagsize s₂.mem (freePhdr s.mem x hdrVar))) ∧
      Mem.Only (fun y => (b.addr + 4 ≤ y ∧ y < b.addr + 8) ∨ (x ≤ y ∧ y < b.addr + b.size) ∨
        InWord (b.addr + b.size) y) s.mem s₂.mem ∧ flagsize s₂.mem x + 28 < 4294967296 := by
  have hat : TiledAt s.mem b := h.at_mem (by simp)
  obtain ⟨hc, hlo, hhi⟩ := hat.split hch hx
  have hfit := hat.fits
  rw [Chunk.len] at hhi
  obtain ⟨u, hm, -⟩ := freeClear_unflag hc hfit (by omega) hlo
  have hfwd := afterForward_tiled h hch hx rfl
  obtain ⟨s₁, hs₁⟩ : ∃ s₁, s₁ = freeClear (freeUnflag s x) b.addr x := ⟨_, rfl⟩
  rw [← hs₁] at hm hfwd ⊢
  obtain ⟨honly, hsize⟩ := afterForward_only hat hch hx hm
  have hphdr : freePhdr s₁.mem x hdrVar = freePhdr s.mem x hdrVar := by
    have : prevsize s₁.mem x = prevsize s.mem x := by
      rw [hm]
      have hin := hc.inside
      simp (disch := omega) only [prevsize, Mem.read32_write32_of_disjoint]
    simp only [freePhdr, this]
  refine ⟨_, rfl, ?_, ?_, honly, hsize⟩
  · simp only [freeIn, ← hs₁, hfwd, hphdr]
  · simp only [FreeIdle, ← hs₁, hfwd, hphdr]

/-- If nothing outside the block changes, the merge with what is taken for the preceding chunk is
not taken. -/
theorem idle_of_outside (hfit : b.addr + b.size < 4294967296) (hge : 20 ≤ b.size)
    (hlo : b.addr + 20 ≤ x) (hout : PhdrOutside s b x hdrVar) {s₂ : HeapState}
    (honly : Mem.Only (fun y => (b.addr + 4 ≤ y ∧ y < b.addr + 8) ∨ (x ≤ y ∧ y < b.addr + b.size) ∨
      InWord (b.addr + b.size) y) s.mem s₂.mem)
    (hsize : flagsize s₂.mem x + 28 < 4294967296)
    (hkeep : ∀ y, ¬ b.Has y →
      (freeNote (freeBackward s₂ b.addr x (freePhdr s.mem x hdrVar)).2 b.addr
        (freeBackward s₂ b.addr x (freePhdr s.mem x hdrVar)).1).mem y = s.mem y) :
    freePhdr s.mem x hdrVar ≠ 0 → 2147483648 ≤ flagsize s₂.mem (freePhdr s.mem x hdrVar) := by
  intro hne
  by_contra hfree
  obtain ⟨y, hy, hchanged⟩ := freeBackward_breaks b.addr x hne
    (not_le.mp hfree) (by omega) fun y hy hy' => (hout hne y hy).1 (by
      have := hy'.le_lt (by omega)
      exact ⟨by omega, by omega⟩)
  obtain ⟨hnb, hne'⟩ := hout hne y hy
  obtain ⟨hnote, -⟩ := freeNote_only
    (s := (freeBackward s₂ b.addr x (freePhdr s.mem x hdrVar)).2)
    (show b.addr + 20 ≤ 4294967296 by omega)
    (freeBackward s₂ b.addr x (freePhdr s.mem x hdrVar)).1
  have h1 := hkeep y hnb
  have h2 : s₂.mem y = s.mem y := honly y fun hy' => by
    rcases hy' with hy' | hy' | hy'
    · exact hnb ⟨by omega, by omega⟩
    · exact hnb ⟨by omega, by omega⟩
    · exact hne' hy'
  rw [hnote y fun hy' => hnb ⟨by omega, by omega⟩, ← h2] at h1
  exact hchanged h1

/-- If no header in front of the chunk is written, no free chunk lies before it. -/
theorem prev_used_of_released (hat : TiledAt s.mem b) (hch : b.chunks = pre ++ c :: post)
    (hx : x = stop Chunk.len (b.addr + 20) pre) {m' : Mem} {u : ℕ}
    (hat' : TiledAt m' { b with used := u, chunks := released pre c post })
    (hm : Mem.Only (fun y => (b.addr ≤ y ∧ y < b.addr + 20) ∨ (x ≤ y ∧ y < b.addr + b.size) ∨
      InWord (b.addr + b.size) y) s.mem m') :
    ∀ q ∈ pre.getLast?, q.used = true := by
  intro q hq
  by_contra hq0
  rcases List.eq_nil_or_concat pre with rfl | ⟨pre', q', rfl⟩
  · simp at hq
  rw [List.concat_eq_append] at *
  obtain rfl : q' = q := by simpa using hq
  obtain ⟨c₁, cs₁, hcs⟩ : ∃ c₁ cs₁, c.clear.coalesce post = c₁ :: cs₁ := by
    cases post with
    | nil => exact ⟨_, _, rfl⟩
    | cons d post =>
        simp only [Chunk.coalesce]
        split
        · exact ⟨_, _, rfl⟩
        · exact ⟨_, _, rfl⟩
  have hrel : released (pre' ++ [q']) c post =
      pre' ++ ⟨q'.prev, q'.size + 8 + c₁.size, false⟩ :: relink (q'.size + 8 + c₁.size) cs₁ := by
    rw [released_concat, if_neg hq0, hcs, Chunk.swallow]
  obtain ⟨hq₁, -, -⟩ := hat'.split hrel rfl
  obtain ⟨hq₂, hqlo, -⟩ := hat.split (hch.trans (List.append_assoc pre' [q'] _)) rfl
  have hfit := hat.fits
  have hqx : stop Chunk.len (b.addr + 20) pre' + q'.len = x := by
    rw [hx, stop_append, stop_cons, stop_nil]
  -- the merged size would be in the word that holds the size of the chunk before
  have hsame : chunkSize m' (stop Chunk.len (b.addr + 20) pre') =
      chunkSize s.mem (stop Chunk.len (b.addr + 20) pre') := by
    have hin := hq₂.inside
    simp only [chunkSize, flagsize]
    rw [hm.read32]
    intro y hy hy'
    have := hy.le_lt (by omega)
    simp only [Chunk.len] at hqx
    rcases hy' with hy' | hy' | hy'
    · omega
    · omega
    · simp only [InWord, w32] at hy'
      have := hat.addr_pos
      omega
  rw [hq₁.chunkSize, hq₂.chunkSize] at hsame
  simp only at hsame
  omega

/-- A call that does what a release is for meets the condition, as long as what it takes for the
preceding header lies outside. -/
theorem freeGood_of_coalesced (h : TiledHeap s (bs₁ ++ b :: bs₂)) (hch : b.chunks = pre ++ c :: post)
    (hx : x = stop Chunk.len (b.addr + 20) pre) (hfuel : (bs₁ ++ b :: bs₂).length < fuel)
    (hout : PhdrOutside s b x hdrVar) {s' : HeapState}
    (hs' : kHeapLCABFree fuel s hdrVar (x + 8) = some s')
    (hco : Coalesced s bs₁ b bs₂ pre c post s') : FreeGood s b pre c post hdrVar := by
  have hat : TiledAt s.mem b := h.at_mem (by simp)
  obtain ⟨hc, hlo, hhi⟩ := hat.split hch hx
  have hfit := hat.fits
  rw [Chunk.len] at hhi
  rw [free_tiled h hch hx hfuel] at hs'
  have hinside : x + 8 < b.addr + b.size := by
    by_contra hlt
    simp [hlt] at hs'
  rw [if_pos hinside, Option.some.injEq] at hs'
  obtain ⟨s₂, hs₂, hfin, hidle_iff, honly, hsize⟩ := free_phases h hch hx hdrVar
  replace hfin := hs'.symm.trans hfin
  have hidle := idle_of_outside hfit hat.size_ge hlo hout honly hsize fun y hy =>
    hfin ▸ hco.only y fun hy' => hy (hat.has_of_touches hch hy')
  have hfin' : s' = freeNote s₂ b.addr x := by rw [hfin, freeBackward_idle hidle]
  obtain ⟨hnote, -⟩ := freeNote_only (s := s₂) (show b.addr + 20 ≤ 4294967296 by omega) x
  rw [← hfin'] at hnote
  have hat' : TiledAt s'.mem _ := hco.tiled.at_mem (List.mem_append_right _ List.mem_cons_self)
  have hprev := prev_used_of_released hat hch hx hat' <|
    (honly.mono fun y hy => hy.imp_left fun hy => ⟨by omega, by omega⟩).trans
      (hnote.mono fun y hy => .inl ⟨by omega, hy.2⟩)
  refine ⟨hx ▸ hinside, ?_, hprev, ?_⟩
  · -- a free chunk behind
    intro d rest hpost hd0
    have hrel : released pre c post = pre ++ c.clear.coalesce post := released_of_prev hprev
    obtain ⟨n, hn⟩ : ∃ n, n = c.size + 8 + d.size := ⟨_, rfl⟩
    have hco' : c.clear.coalesce post = ⟨c.prev, n, false⟩ :: relink n rest := by
      simp [hpost, Chunk.coalesce, hd0, hn, Chunk.clear]
    rw [hco'] at hrel
    obtain ⟨hx₁, -, -⟩ := hat'.split hrel rfl
    refine ⟨hn ▸ hx₁.size_lt, fun hrest => ?_⟩
    subst hrest hpost
    have hstop := hat.stop_eq
    simp only [hch, stop_append, ← hx, stop_cons, stop_nil, Chunk.len] at hstop
    have hzlim : x + 8 + n = b.addr + b.size := by omega
    have hnlt : n < 4294967296 := by omega
    have hword : s'.mem.read32 (b.addr + b.size) = n := by
      rw [hnote.read32 fun y hy hy' => ?_, hs₂]
      · simp only [afterForward, hd0, Bool.false_eq_true, if_false, forwardMem]
        rw [show c.clear.size + 8 + d.size = n from hn.symm, hzlim, Mem.read32_write32,
          w32_of_lt hnlt]
      · exact behind_descriptor hat.addr_pos (by omega) hfit hy ⟨by omega, hy'.2⟩
    rw [← hn, ← hword]
    refine (Mem.read32_congr fun y hy => ?_).symm
    rcases hat.behind hy with hy' | hy'
    · exact hco.only y fun hy'' => hy' (hat.has_of_touches hch hy'')
    · exact Mem.eq_of_read32 (hat'.size_eq.trans hat.size_eq.symm) hy'
  · rw [← hx]
    exact hidle_iff.mpr hidle

/-- For every pointer to a chunk of an exactly tiled heap with correct tags: under the condition
the call yields the chunks merged with their free neighbours and changes nothing else; and no
other call does, as long as what is taken for the preceding header lies outside. -/
theorem free_coalesced_iff (h : TiledHeap s (bs₁ ++ b :: bs₂)) (hchain : b.Chained)
    (hch : b.chunks = pre ++ c :: post) (hfuel : (bs₁ ++ b :: bs₂).length < fuel) (hdrVar : ℕ) :
    (FreeGood s b pre c post hdrVar →
      ∃ s', kHeapLCABFree fuel s hdrVar (stop Chunk.len (b.addr + 20) pre + 8) = some s' ∧
        Coalesced s bs₁ b bs₂ pre c post s') ∧
    (PhdrOutside s b (stop Chunk.len (b.addr + 20) pre) hdrVar →
      ((∃ s', kHeapLCABFree fuel s hdrVar (stop Chunk.len (b.addr + 20) pre + 8) = some s' ∧
        Coalesced s bs₁ b bs₂ pre c post s') ↔ FreeGood s b pre c post hdrVar)) := by
  have hgood : FreeGood s b pre c post hdrVar →
      ∃ s', kHeapLCABFree fuel s hdrVar (stop Chunk.len (b.addr + 20) pre + 8) = some s' ∧
        Coalesced s bs₁ b bs₂ pre c post s' := fun hgood =>
    ⟨_, (free_tiled h hch rfl hfuel).trans (if_pos hgood.inside),
      freeIn_coalesced h hchain hch hgood rfl⟩
  refine ⟨hgood, fun hout => ⟨?_, hgood⟩⟩
  rintro ⟨s', hs', hco⟩
  exact freeGood_of_coalesced h hch rfl hfuel hout hs' hco

end converse

/-! ### Two calls -/

/-- A heap of the one block `b`, in a memory that holds the words `ws` besides. -/
def oneBlock (b : Block) (ws : List (ℕ × ℕ)) : HeapState where
  mem := ws.foldl (fun m w => m.write32 w.1 w.2) (Mem.write32 (fun _ => 0) b.addr b.size)
  heap := ⟨b.addr, 1, 0, b.size⟩

theorem oneBlock_tiled {b : Block} {ws : List (ℕ × ℕ)} (hpos : 0 < b.addr)
    (hfit : b.addr + b.size < 4294967296)
    (hread : hbSize (oneBlock b ws).mem b.addr = b.size ∧
      hbUsed (oneBlock b ws).mem b.addr = b.used ∧ hbNext (oneBlock b ws).mem b.addr = 0)
    (hcs : stop Chunk.len (b.addr + 20) b.chunks = b.addr + b.size ∧
      ∀ p ∈ placed Chunk.len (b.addr + 20) b.chunks, p.2 = chunkAt (oneBlock b ws).mem p.1) :
    TiledHeap (oneBlock b ws) [b] :=
  ⟨⟨rfl, ⟨hpos, hfit, hread.1, hread.2.1, tiles_iff.mpr hcs⟩, hread.2.2⟩, by simp⟩

/-- A block with a free chunk behind the first one. -/
def freeBehind : Block := ⟨4096, 84, 0, [⟨0, 16, true⟩, ⟨16, 16, false⟩, ⟨16, 8, true⟩]⟩

def freeBehindHeap : HeapState := oneBlock freeBehind
  [(4120, 2147483664), (4140, 16), (4144, 16), (4164, 16), (4168, 2147483656)]

/-- The theorem for the first chunk of `freeBehind`. -/
theorem free_coalesced_iff_three :
    ∃ s', kHeapLCABFree 2 freeBehindHeap 8192 4124 = some s' ∧
      Coalesced freeBehindHeap [] freeBehind [] [] ⟨0, 16, true⟩
        [⟨16, 16, false⟩, ⟨16, 8, true⟩] s' := by
  have htiled : TiledHeap freeBehindHeap ([] ++ freeBehind :: []) :=
    oneBlock_tiled (by decide) (by decide) (by decide +kernel) (by decide +kernel)
  have hch : freeBehind.chunks = [] ++ ⟨0, 16, true⟩ :: [⟨16, 16, false⟩, ⟨16, 8, true⟩] := rfl
  have hgood : FreeGood freeBehindHeap freeBehind [] ⟨0, 16, true⟩
      [⟨16, 16, false⟩, ⟨16, 8, true⟩] 8192 := by
    refine ⟨by decide, ?_, by simp, fun hne => absurd (by decide +kernel) hne⟩
    rintro d rest ⟨⟩ -
    exact ⟨by decide, fun h => absurd h (List.cons_ne_nil _ _)⟩
  exact (free_coalesced_iff htiled ⟨fun _ => rfl, fun _ => rfl, fun _ => rfl, trivial⟩ hch
    (by decide) 8192).1 hgood

/-- A block with a free chunk before the last one. -/
def freeBefore : Block := ⟨4096, 68, 0, [⟨0, 16, false⟩, ⟨16, 16, true⟩]⟩

def freeBeforeHeap : HeapState := oneBlock freeBefore [(4120, 16), (4140, 16), (4144, 2147483664)]

/-- A free chunk before the released one stays unmerged, and a word of the stack is written. -/
theorem free_misses_prev :
    TiledHeap freeBeforeHeap [freeBefore] ∧ freeBefore.Chained ∧
      ∃ s', kHeapLCABFree 2 freeBeforeHeap 8192 4148 = some s' ∧
        chunkAt s'.mem 4116 = ⟨0, 16, false⟩ ∧ chunkAt s'.mem 4140 = ⟨16, 16, false⟩ ∧
        freeBeforeHeap.mem.read32 8172 = 0 ∧ s'.mem.read32 8172 = 24 ∧
        ¬ Coalesced freeBeforeHeap [] freeBefore [] [⟨0, 16, false⟩] ⟨16, 16, true⟩ [] s' := by
  have htiled : TiledHeap freeBeforeHeap ([] ++ freeBefore :: []) :=
    oneBlock_tiled (by decide) (by decide) (by decide +kernel) (by decide +kernel)
  have hch : freeBefore.chunks = [⟨0, 16, false⟩] ++ ⟨16, 16, true⟩ :: [] := rfl
  have hcall : kHeapLCABFree 2 freeBeforeHeap 8192 (4140 + 8) =
      some (freeIn (freeUnflag freeBeforeHeap 4140) 4096 4140 8192) :=
    free_tiled htiled hch rfl (by decide)
  have hphdr : freePhdr freeBeforeHeap.mem 4140 8192 = 8168 := by decide +kernel
  refine ⟨htiled, ⟨fun _ => rfl, fun _ => rfl, trivial⟩, _, hcall, by decide +kernel,
    by decide +kernel, by decide +kernel, by decide +kernel, fun hco => ?_⟩
  have hgood := freeGood_of_coalesced htiled hch rfl (by decide) (fun _ y hy => ?_) hcall hco
  · simpa using hgood.prev
  · have hx : stop Chunk.len (freeBefore.addr + 20) [⟨0, 16, false⟩] = 4140 := rfl
    rw [hx, hphdr] at hy
    simp only [InWord, w32, Block.Has, freeBefore] at hy ⊢
    omega

end Owmice.Heap
