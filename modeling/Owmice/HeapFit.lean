import Owmice.HeapRun

/-! # First fit on exactly tiled blocks

A block is tiled exactly when the walk "header, plus 8, plus its size" leads from the first
header to the end of the block.  On a heap of such blocks `k_heapLCABAlloc` takes the first
free chunk that is large enough, in the first block whose counters admit the request, or
returns 0 when there is none.

* `TiledHeap s bs`: the memory holds the blocks `bs`, disjoint and tiled exactly;
* `allocFind_tiled`: the search ends and is `firstFit`;
* `alloc_firstFit`: the whole call. -/

namespace Owmice.Heap

open Tiling

/-! ### Exact tilings -/

/-- What the header at `x` says. -/
def chunkAt (m : Mem) (x : ℕ) : Chunk :=
  ⟨prevsize m x, chunkSize m x, decide (2147483648 ≤ flagsize m x)⟩

/-- Following the headers from `x` on reaches `lim`; the chunks on the way are `cs`. -/
inductive Tiles (m : Mem) (lim : ℕ) : ℕ → List Chunk → Prop
  | nil : Tiles m lim lim []
  | cons {x : ℕ} {cs : List Chunk} :
      Tiles m lim (x + 8 + chunkSize m x) cs → Tiles m lim x (chunkAt m x :: cs)

/-- The block `b` is in memory, tiled exactly by its chunks, and its end is an address. -/
structure TiledAt (m : Mem) (b : Block) : Prop where
  addr_pos : 0 < b.addr
  fits : b.addr + b.size < 4294967296
  size_eq : hbSize m b.addr = b.size
  used_eq : hbUsed m b.addr = b.used
  tiles : Tiles m (b.addr + b.size) (b.addr + 20) b.chunks

/-- The heap consists of the blocks `bs`, disjoint and tiled exactly. -/
structure TiledHeap (s : HeapState) (bs : List Block) : Prop where
  blocks : Linked TiledAt s.mem s.heap.fblock bs
  disjoint : bs.Pairwise fun b c => ∀ y, b.Has y → ¬ c.Has y

theorem chunkAt_len (m : Mem) (x : ℕ) : x + (chunkAt m x).len = x + 8 + chunkSize m x := by
  simp only [chunkAt, Chunk.len]
  omega

/-- A tiling is a list of chunks read off the headers that ends at `lim`. -/
theorem tiles_iff {m : Mem} {lim : ℕ} : ∀ {cs : List Chunk} {x : ℕ}, Tiles m lim x cs ↔
    stop Chunk.len x cs = lim ∧ ∀ p ∈ placed Chunk.len x cs, p.2 = chunkAt m p.1
  | [], x => by
      constructor
      · rintro ⟨⟩
        simp
      · rintro ⟨h, -⟩
        rw [stop_nil] at h
        exact h ▸ .nil
  | c :: cs, x => by
      simp only [stop_cons, placed_cons, List.forall_mem_cons]
      constructor
      · intro h
        cases h with
        | cons h =>
            rw [← chunkAt_len] at h
            exact ⟨(tiles_iff.mp h).1, rfl, (tiles_iff.mp h).2⟩
      · rintro ⟨h1, rfl, h2⟩
        refine .cons ?_
        rw [← chunkAt_len]
        exact tiles_iff.mpr ⟨h1, h2⟩

theorem hdrAt_chunkAt {m : Mem} {lim x : ℕ} (h : x + (chunkAt m x).len ≤ lim) :
    HdrAt m lim x (chunkAt m x) := by
  have hflag := m.read32_lt (x + 4)
  simp only [chunkAt, Chunk.len, chunkSize, flagsize] at h
  refine ⟨by omega, rfl, ?_, Nat.mod_lt _ (by norm_num), fun _ => ?_⟩
  · simp only [Chunk.flagsize, chunkAt, chunkSize, flagsize]
    by_cases hu : 2147483648 ≤ m.read32 (x + 4)
    · simp only [hu, decide_true, if_true]
      omega
    · simp only [hu, decide_false, Bool.false_eq_true, if_false]
      omega
  · simp only [chunkAt, chunkSize, flagsize]
    omega

theorem HdrAt.eq_chunkAt {m : Mem} {lim x : ℕ} {c : Chunk} (h : HdrAt m lim x c) :
    c = chunkAt m x := by
  have hu : c.used = decide (2147483648 ≤ flagsize m x) := by
    have := h.free_iff
    rw [Bool.eq_iff_iff, decide_eq_true_eq, ← not_lt, this]
    simp
  rw [chunkAt, h.chunkSize, h.prev, ← hu]

namespace TiledAt

variable {m : Mem} {b : Block}

theorem stop_eq (h : TiledAt m b) : stop Chunk.len (b.addr + 20) b.chunks = b.addr + b.size :=
  (tiles_iff.mp h.tiles).1

theorem size_ge (h : TiledAt m b) : 20 ≤ b.size := by
  have := le_stop Chunk.len (b.addr + 20) b.chunks
  rw [h.stop_eq] at this
  omega

/-- The headers of a tiled block, each with its whole chunk inside. -/
theorem hdrs (h : TiledAt m b) : ∀ p ∈ b.headers, HdrAt m (b.addr + b.size) p.1 p.2 := by
  intro p hp
  have hb := (placed_bounds Chunk.len hp).2
  rw [h.stop_eq] at hb
  have hc := (tiles_iff.mp h.tiles).2 p hp
  rw [hc] at hb ⊢
  exact hdrAt_chunkAt hb

/-- Headers that end at the end of the block make a tiled block. -/
theorem of_hdrs (hpos : 0 < b.addr) (hfit : b.addr + b.size < 4294967296)
    (hsize : hbSize m b.addr = b.size) (hused : hbUsed m b.addr = b.used)
    (hstop : stop Chunk.len (b.addr + 20) b.chunks = b.addr + b.size)
    (hh : ∀ p ∈ b.headers, HdrAt m (b.addr + b.size) p.1 p.2) : TiledAt m b :=
  ⟨hpos, hfit, hsize, hused, tiles_iff.mpr ⟨hstop, fun p hp => (hh p hp).eq_chunkAt⟩⟩

/-- A chunk in the middle of a block. -/
theorem split (h : TiledAt m b) {pre post : List Chunk} {c : Chunk} {x : ℕ}
    (hb : b.chunks = pre ++ c :: post) (hx : x = stop Chunk.len (b.addr + 20) pre) :
    HdrAt m (b.addr + b.size) x c ∧ b.addr + 20 ≤ x ∧ x + c.len ≤ b.addr + b.size := by
  have hmem := Block.mem_headers hb hx
  have hbd := placed_bounds Chunk.len hmem
  rw [h.stop_eq] at hbd
  exact ⟨h.hdrs _ hmem, hbd⟩

/-- A block depends on its own bytes only. -/
theorem congr (h : TiledAt m b) {m' : Mem} (hm : ∀ y, b.Has y → m' y = m y) :
    TiledAt m' b ∧ hbNext m' b.addr = hbNext m b.addr := by
  have hfit := h.fits
  have hsz := h.size_ge
  have hword : ∀ a, b.addr ≤ a → a + 4 ≤ b.addr + 20 → m'.read32 a = m.read32 a := by
    intro a h1 h2
    refine Mem.read32_congr fun y hy => hm y ?_
    have := hy.le_lt (by omega)
    exact ⟨by omega, by omega⟩
  refine ⟨of_hdrs h.addr_pos hfit ?_ ?_ h.stop_eq fun p hp => ?_, hword _ (by omega) (by omega)⟩
  · exact (hword _ le_rfl (by omega)).trans h.size_eq
  · exact (hword _ (by omega) (by omega)).trans h.used_eq
  · have hlo := (placed_bounds Chunk.len hp).1
    have hin := (h.hdrs p hp).inside
    exact (h.hdrs p hp).congr hfit.le fun y h1 h2 => hm y ⟨by omega, by omega⟩

/-- Replace a stretch of chunks by another of the same extent. -/
theorem replace (h : TiledAt m b) {m' : Mem} {pre : List Chunk} (mid mid' : List Chunk)
    {post : List Chunk} {x e : ℕ} (hb : b.chunks = pre ++ (mid ++ post))
    (hx : x = stop Chunk.len (b.addr + 20) pre) (he : e = stop Chunk.len x mid)
    (he' : e = stop Chunk.len x mid') (hm : Mem.Only (BlockAt.Rewrites b x e) m m')
    (hmid : ∀ p ∈ placed Chunk.len x mid', HdrAt m' (b.addr + b.size) p.1 p.2) :
    TiledAt m' { b with used := hbUsed m' b.addr, chunks := pre ++ (mid' ++ post) } ∧
      hbNext m' b.addr = hbNext m b.addr := by
  have hfit := h.fits
  have hsz := h.size_ge
  have hxlo : b.addr + 20 ≤ x := hx ▸ le_stop Chunk.len _ pre
  have hhdrs := h.hdrs
  simp only [Block.headers, hb] at hhdrs
  have hstop : stop Chunk.len (b.addr + 20) (pre ++ (mid' ++ post)) = b.addr + b.size := by
    rw [← h.stop_eq]
    simp only [hb, stop_append, ← hx, ← he, ← he']
  have hword : ∀ a, (a = b.addr ∨ a = b.addr + 8) → m'.read32 a = m.read32 a := by
    intro a ha
    refine hm.read32 fun y hy => ?_
    have := hy.le_lt (by omega)
    simp only [BlockAt.Rewrites, Block.Has]
    omega
  refine ⟨of_hdrs h.addr_pos hfit ((hword _ (.inl rfl)).trans h.size_eq) rfl hstop ?_,
    hword _ (.inr rfl)⟩
  refine hdrs_replace hhdrs hfit.le hx he he' (fun y h1 h2 h3 => hm y ?_) hmid
  have h1' : b.addr + 20 ≤ y := h1
  have h2' : y < b.addr + b.size := h2
  simp only [BlockAt.Rewrites, Block.Has]
  omega

end TiledAt

namespace TiledHeap

variable {s s' : HeapState} {bs bs₁ bs₂ : List Block} {b b' : Block}

theorem at_mem (h : TiledHeap s bs) (hb : b ∈ bs) : TiledAt s.mem b := h.blocks.mem b hb

/-- The other blocks share no byte with `b`. -/
theorem others (h : TiledHeap s (bs₁ ++ b :: bs₂)) :
    ∀ c ∈ bs₁ ++ bs₂, ∀ y, b.Has y → ¬ c.Has y := by
  have hd := h.disjoint
  rw [List.pairwise_append, List.pairwise_cons] at hd
  obtain ⟨_, ⟨h2, _⟩, h4⟩ := hd
  intro c hc y hy hy'
  rcases List.mem_append.mp hc with hc | hc
  · exact h4 c hc b List.mem_cons_self y hy' hy
  · exact h2 c hc y hy hy'

/-- A change of one block that leaves the bytes of the others alone. -/
theorem update (h : TiledHeap s (bs₁ ++ b :: bs₂)) (ha : b'.addr = b.addr) (hs : b'.size = b.size)
    (hb' : TiledAt s'.mem b') (hnext : hbNext s'.mem b.addr = hbNext s.mem b.addr)
    (hf : s'.heap.fblock = s.heap.fblock)
    (hm : ∀ c ∈ bs₁ ++ bs₂, ∀ y, c.Has y → s'.mem y = s.mem y) :
    TiledHeap s' (bs₁ ++ b' :: bs₂) := by
  have hhas : ∀ y, b'.Has y ↔ b.Has y := fun y => by simp only [Block.Has, ha, hs]
  refine ⟨?_, ?_⟩
  · rw [hf]
    exact h.blocks.update ha hb' hnext fun c hc hat => hat.congr (hm c hc)
  · have hd := h.disjoint
    rw [List.pairwise_append, List.pairwise_cons] at hd ⊢
    obtain ⟨h1, ⟨h2, h3⟩, h4⟩ := hd
    refine ⟨h1, ⟨fun c hc y hy => h2 c hc y ((hhas y).mp hy), h3⟩, fun c hc d hd y hy hy' => ?_⟩
    rcases List.mem_cons.mp hd with rfl | hd
    · exact h4 c hc b List.mem_cons_self y hy ((hhas y).mp hy')
    · exact h4 c hc d (List.mem_cons_of_mem _ hd) y hy hy'

end TiledHeap

/-! ### The search -/

/-- The number of turns that the loops of a request take at most. -/
def loopBound (bs : List Block) : ℕ := (bs.map fun b => b.chunks.length + 1).sum + 1

theorem length_lt_loopBound {bs : List Block} {b : Block} (hb : b ∈ bs) :
    b.chunks.length + 1 < loopBound bs := by
  have := List.single_le_sum (l := bs.map fun b => b.chunks.length + 1) (by simp) _
    (List.mem_map_of_mem hb)
  simp only [loopBound]
  omega

theorem loopBound_cons (b : Block) (bs : List Block) :
    loopBound (b :: bs) = b.chunks.length + 1 + loopBound bs := by
  simp only [loopBound, List.map_cons, List.sum_cons]
  omega

/-- The walk over one block ends. -/
theorem allocScan_ends {m : Mem} {hb size lim : ℕ} (hlim : w32 (hb + hbSize m hb) = lim) :
    ∀ {cs : List Chunk} {x fuel : ℕ}, (∀ p ∈ placed Chunk.len x cs, HdrAt m lim p.1 p.2) →
      lim ≤ stop Chunk.len x cs → stop Chunk.len x cs < 4294967296 → cs.length < fuel →
      ∃ r, allocScan m hb size fuel x = some r
  | _, _, 0, _, _, _, h => absurd h (Nat.not_lt_zero _)
  | [], x, fuel + 1, _, hreach, _, _ => by
      have hx : ¬ x < lim := by simpa using hreach
      exact ⟨none, by simp only [allocScan, hlim, hx, if_false]⟩
  | c :: cs, x, fuel + 1, hh, hreach, hlt, hfuel => by
      have hc : HdrAt m lim x c := hh (x, c) (by simp)
      have hx : x < lim := by have := hc.inside; omega
      simp only [allocScan, hlim, hx, if_true, hc.free_iff, hc.chunkSize]
      split
      · exact ⟨_, rfl⟩
      · rw [w32_next hlt]
        rw [List.length_cons] at hfuel
        exact allocScan_ends hlim (fun p hp => hh p (by simp [hp])) hreach hlt (by omega)

/-- The walk over a tiled block finds what `fitIn` finds. -/
theorem TiledAt.allocScan {m : Mem} {b : Block} (h : TiledAt m b) {size fuel : ℕ}
    (hfuel : b.chunks.length < fuel) :
    allocScan m b.addr size fuel (b.addr + 20) =
      some ((fitIn size (b.addr + 20) b.chunks).map Prod.fst) := by
  have hfit := h.fits
  have hlim : w32 (b.addr + hbSize m b.addr) = b.addr + b.size := by
    rw [h.size_eq, w32_of_lt hfit]
  have hreach := h.stop_eq
  obtain ⟨r, hr⟩ : ∃ r, Heap.allocScan m b.addr size fuel (b.addr + 20) = some r :=
    allocScan_ends hlim h.hdrs hreach.ge (by omega) hfuel
  rw [hr, allocScan_eq hlim b.chunks _ fuel h.hdrs hreach.ge (by omega) hr]

/-- The walk over the blocks finds what `firstFit` finds. -/
theorem allocFind_tiled {m : Mem} {size fuel : ℕ} :
    ∀ {bs : List Block} {hb n : ℕ}, Linked TiledAt m hb bs → loopBound bs ≤ n →
      loopBound bs ≤ fuel →
      allocFind m size fuel n hb = some ((firstFit size bs).map fun q => (q.1.addr, q.2.1))
  | [], hb, 0, _, hn, _ => by simp [loopBound] at hn
  | b :: bs, hb, 0, _, hn, _ => by simp [loopBound] at hn
  | [], hb, n + 1, hbs, _, _ => by
      have hz : hb = 0 := hbs
      simp [allocFind, hz, firstFit]
  | b :: bs, hb, n + 1, ⟨hhb, hat, hrest⟩, hn, hfuel => by
      subst hhb
      have hlen : b.chunks.length + 1 < loopBound (b :: bs) := length_lt_loopBound List.mem_cons_self
      rw [loopBound_cons] at hn
      have ih : allocFind m size fuel n (hbNext m b.addr) =
          some ((firstFit size bs).map fun q => (q.1.addr, q.2.1)) :=
        allocFind_tiled hrest (by omega) (by rw [loopBound_cons] at hfuel; omega)
      have h20 : w32 (b.addr + 20) = b.addr + 20 :=
        w32_of_lt (by have := hat.fits; have := hat.size_ge; omega)
      simp only [allocFind, hat.addr_pos.ne', if_false, hat.size_eq, hat.used_eq, h20]
      by_cases hroom : w32 (size + 8) ≤ sub32 b.size b.used
      · have hscan : allocScan m b.addr size fuel (b.addr + 20) = _ := hat.allocScan (by omega)
        simp only [hroom, if_true, hscan]
        cases hf : fitIn size (b.addr + 20) b.chunks with
        | none => simpa [firstFit, hroom, hf] using ih
        | some p => simp [firstFit, hroom, hf]
      · simpa [firstFit, hroom] using ih

/-! ### The chunk that is chosen -/

/-- The chunk is free and has room for `n` bytes. -/
def Chunk.Fits (n : ℕ) (c : Chunk) : Prop := c.used = false ∧ n ≤ c.size

/-- The counters of the block leave room for `n` bytes and a header, in 32-bit arithmetic. -/
def Block.Admits (n : ℕ) (b : Block) : Prop := w32 (n + 8) ≤ sub32 b.size b.used

instance (n : ℕ) (c : Chunk) : Decidable (c.Fits n) := by unfold Chunk.Fits; infer_instance

instance (n : ℕ) (b : Block) : Decidable (b.Admits n) := by unfold Block.Admits; infer_instance

/-- Of the blocks `bs₁`, then `b`, and of the chunks `pre`, then `c`, of `b`, the last one is
the first that fits. -/
structure FirstFit (n : ℕ) (bs₁ : List Block) (b : Block) (pre : List Chunk) (c : Chunk) :
    Prop where
  earlier : ∀ d ∈ bs₁, d.Admits n → ∀ e ∈ d.chunks, ¬ e.Fits n
  admits : b.Admits n
  skipped : ∀ e ∈ pre, ¬ e.Fits n
  fits : c.Fits n

/-- `fitIn` walks over chunks that do not fit. -/
theorem fitIn_spec (n : ℕ) : ∀ (cs : List Chunk) (a : ℕ),
    (fitIn n a cs = none ∧ ∀ e ∈ cs, ¬ e.Fits n) ∨
      ∃ pre c post, cs = pre ++ c :: post ∧ fitIn n a cs = some (stop Chunk.len a pre, c) ∧
        c.Fits n ∧ ∀ e ∈ pre, ¬ e.Fits n
  | [], a => .inl ⟨rfl, by simp⟩
  | d :: ds, a => by
      by_cases hd : d.Fits n
      · refine .inr ⟨[], d, ds, rfl, ?_, hd, by simp⟩
        simp [fitIn, hd.1, hd.2]
      · have hskip : fitIn n a (d :: ds) = fitIn n (a + d.len) ds := by
          have hne : (!d.used && decide (n ≤ d.size)) = false := by
            rw [Bool.eq_false_iff]
            simpa [Chunk.Fits] using hd
          simp [fitIn, hne]
        rcases fitIn_spec n ds (a + d.len) with ⟨h1, h2⟩ | ⟨pre, c, post, rfl, h1, h2, h3⟩
        · exact .inl ⟨hskip.trans h1, List.forall_mem_cons.mpr ⟨hd, h2⟩⟩
        · exact .inr ⟨d :: pre, c, post, rfl, hskip.trans h1, h2,
            List.forall_mem_cons.mpr ⟨hd, h3⟩⟩

/-- `firstFit` walks over blocks that do not admit the request or have no chunk for it. -/
theorem firstFit_spec (n : ℕ) (bs : List Block) :
    (firstFit n bs = none ∧ ∀ b ∈ bs, b.Admits n → ∀ e ∈ b.chunks, ¬ e.Fits n) ∨
      ∃ bs₁ b bs₂ pre c post, bs = bs₁ ++ b :: bs₂ ∧ b.chunks = pre ++ c :: post ∧
        firstFit n bs = some (b, stop Chunk.len (b.addr + 20) pre, c) ∧ FirstFit n bs₁ b pre c := by
  induction bs with
  | nil => exact .inl ⟨rfl, by simp⟩
  | cons d ds ih =>
      by_cases hd : d.Admits n ∧ ∃ e ∈ d.chunks, e.Fits n
      · obtain ⟨hroom, e, he, hfit⟩ := hd
        rcases fitIn_spec n d.chunks (d.addr + 20) with ⟨_, h⟩ | ⟨pre, c, post, hch, h1, h2, h3⟩
        · exact absurd hfit (h e he)
        · refine .inr ⟨[], d, ds, pre, c, post, rfl, hch, ?_, ⟨by simp, hroom, h3, h2⟩⟩
          simp only [Block.Admits] at hroom
          simp [firstFit, hroom, h1]
      · have hno : d.Admits n → ∀ e ∈ d.chunks, ¬ e.Fits n :=
          fun hroom e he hfit => hd ⟨hroom, e, he, hfit⟩
        have hskip : firstFit n (d :: ds) = firstFit n ds := by
          by_cases hroom : d.Admits n
          · rcases fitIn_spec n d.chunks (d.addr + 20) with ⟨h1, _⟩ | ⟨pre, c, post, hch, _, h2, _⟩
            · simp [firstFit, h1]
            · exact absurd h2 (hno hroom c (by simp [hch]))
          · simp only [Block.Admits] at hroom
            simp [firstFit, hroom]
        rw [hskip]
        rcases ih with ⟨h1, h2⟩ | ⟨bs₁, b, bs₂, pre, c, post, rfl, hch, h1, h2⟩
        · exact .inl ⟨h1, List.forall_mem_cons.mpr ⟨hno, h2⟩⟩
        · exact .inr ⟨d :: bs₁, b, bs₂, pre, c, post, rfl, hch, h1,
            { h2 with earlier := List.forall_mem_cons.mpr ⟨hno, h2.earlier⟩ }⟩

/-! ### The whole call -/

/-- What becomes of the heap when `n` bytes are taken from the chunk `c` between `pre` and
`post` in the block `b` between `bs₁` and `bs₂`. -/
structure Served (n : ℕ) (s : HeapState) (bs₁ : List Block) (b : Block) (bs₂ : List Block)
    (pre : List Chunk) (c : Chunk) (post : List Chunk) (s' : HeapState) : Prop where
  tiled : TiledHeap s' (bs₁ ++ { b with used := w32 (b.used + c.charge n)
                                        chunks := pre ++ (c.take n ++ post) } :: bs₂)
  heap : s'.heap = { s.heap with memInUse := w32 (s.heap.memInUse + c.charge n) }
  kept : ∀ d ∈ bs₁ ++ b :: bs₂, ∀ p ∈ d.headers, p.1 ≠ stop Chunk.len (b.addr + 20) pre →
    ∀ y, p.1 ≤ y → y < p.1 + p.2.len → s'.mem y = s.mem y
  only : Mem.Only (fun y => (b.addr + 4 ≤ y ∧ y < b.addr + 8) ∨
    (stop Chunk.len (b.addr + 20) pre ≤ y ∧ y < stop Chunk.len (b.addr + 20) pre + c.len))
    s.mem s'.mem

/-- Taking a chunk that fits. -/
theorem allocTake_served {s : HeapState} {bs₁ bs₂ : List Block} {b : Block} {n : ℕ}
    {pre post : List Chunk} {c : Chunk} (h : TiledHeap s (bs₁ ++ b :: bs₂))
    (hch : b.chunks = pre ++ c :: post) (hfits : c.Fits n) :
    Served n s bs₁ b bs₂ pre c post
      (allocTake s b.addr (stop Chunk.len (b.addr + 20) pre) n) := by
  have hmem : b ∈ bs₁ ++ b :: bs₂ := by simp
  have hat := h.at_mem hmem
  obtain ⟨hc, hlo, hhi⟩ := hat.split hch rfl
  have hsz := hat.size_ge
  have hxc := Block.mem_headers hch rfl
  have honly := allocTake_only hc hat.fits hlo hfits.1 hfits.2
  obtain ⟨hused, hheap⟩ := allocTake_counters hc hat.fits hlo hfits.1 hfits.2
  -- what is written lies in the block
  have hin : ∀ d ∈ bs₁ ++ bs₂, ∀ y, d.Has y →
      (allocTake s b.addr (stop Chunk.len (b.addr + 20) pre) n).mem y = s.mem y := by
    intro d hd y hy
    refine honly y fun hy' => h.others d hd y ?_ hy
    simp only [Block.Has]
    omega
  refine ⟨?_, hheap, fun d hd p hp hne y h1 h2 => ?_, honly⟩
  · obtain ⟨k1, k2⟩ := hat.replace [c] (c.take n) hch rfl rfl (Chunk.stop_take c n _).symm
      (honly.mono fun y hy => hy.elim .inl fun hy => .inr (.inr (.inl hy)))
      (allocTake_hdrs hc hat.fits hlo hfits.1 hfits.2)
    rw [hused, show hbUsed s.mem b.addr = b.used from hat.used_eq] at k1
    exact h.update rfl rfl k1 k2 (by rw [hheap]) hin
  · have hd' : d ∈ bs₁ ++ bs₂ ∨ d = b := by
      simp only [List.mem_append, List.mem_cons] at hd ⊢
      tauto
    have hbd := placed_bounds Chunk.len hp
    rw [(h.at_mem hd).stop_eq] at hbd
    rcases hd' with hd' | rfl
    · exact hin d hd' y ⟨by omega, by omega⟩
    · have hsep := placed_separate Chunk.len hp hxc hne
      refine honly y ?_
      omega

/-- A request on a tiled heap ends, with the first chunk that fits. -/
theorem TiledHeap.alloc {s : HeapState} {bs : List Block} (h : TiledHeap s bs) (n : ℕ) {fuel : ℕ}
    (hfuel : loopBound bs ≤ fuel) :
    kHeapLCABAlloc fuel s n = some (match firstFit n bs with
      | none => (0, s)
      | some (b, x, _) => (w32 (x + 8), allocTake s b.addr x n)) := by
  have hfind : allocFind s.mem n fuel fuel s.heap.fblock = _ :=
    allocFind_tiled h.blocks hfuel hfuel
  unfold kHeapLCABAlloc
  rw [hfind]
  cases firstFit n bs with
  | none => rfl
  | some p => rfl

/-- A request of `n` bytes ends.  It takes the first chunk that fits, in the first block whose
counters admit the request and which has one; when there is none it returns 0 and changes
nothing. -/
theorem alloc_firstFit {s : HeapState} {bs : List Block} (h : TiledHeap s bs) (n : ℕ) {fuel : ℕ}
    (hfuel : loopBound bs ≤ fuel) :
    (kHeapLCABAlloc fuel s n = some (0, s) ∧
        ∀ b ∈ bs, b.Admits n → ∀ e ∈ b.chunks, ¬ e.Fits n) ∨
      ∃ bs₁ b bs₂ pre c post s', bs = bs₁ ++ b :: bs₂ ∧ b.chunks = pre ++ c :: post ∧
        FirstFit n bs₁ b pre c ∧
        kHeapLCABAlloc fuel s n = some (stop Chunk.len (b.addr + 20) pre + 8, s') ∧
        Served n s bs₁ b bs₂ pre c post s' := by
  have halloc := h.alloc n hfuel
  rcases firstFit_spec n bs with ⟨h1, h2⟩ | ⟨bs₁, b, bs₂, pre, c, post, rfl, hch, h1, h2⟩
  · refine .inl ⟨?_, h2⟩
    rw [halloc, h1]
  · refine .inr ⟨bs₁, b, bs₂, pre, c, post, _, rfl, hch, h2, ?_, allocTake_served h hch h2.fits⟩
    have hat : TiledAt s.mem b := h.at_mem (by simp)
    obtain ⟨hc, _, hhi⟩ := hat.split hch rfl
    have hin := hc.inside
    have hfit := hat.fits
    rw [halloc, h1]
    simp only
    rw [w32_of_lt (by omega)]

/-! ### Heaps made by `k_heapLCABAddBlock` -/

/-- A heap whose chunks end where the blocks do is tiled exactly. -/
theorem HeapInv.tiledHeap {s : HeapState} {bs : List Block} (h : HeapInv s bs)
    (hstop : ∀ b ∈ bs, stop Chunk.len (b.addr + 20) b.chunks = b.addr + b.size) :
    TiledHeap s bs := by
  refine ⟨?_, h.apart.imp fun hap y => hap.1 y⟩
  refine (blocksAt_iff.mp h.blocks).imp fun b hb hat => ?_
  exact .of_hdrs hat.addr_pos hat.fits hat.size_eq hat.used_eq (hstop b hb) hat.hdrs

/-- `k_heapLCABAddBlock` makes a tiled heap out of a block that ends in zeros. -/
theorem makeHeap_tiled {m : Mem} {heap : KHeapLCAB} {addr size : ℕ} (hpos : 0 < addr)
    (hge : 52 ≤ size) (hlt : size < 2147483676) (hfit : addr + size < 4294967296)
    (hz : ∀ y, addr + size - 24 ≤ y → y < addr + size → m y = 0) :
    TiledHeap (makeHeap m heap [(addr, size)]).st
      [freshBlock m addr size (List.replicate 3 ⟨0, 0, false⟩)] := by
  have h0 : HeapInv ⟨m, kHeapLCABInit heap⟩ [] := ⟨rfl, .nil⟩
  have hinv := addBlock_heapInv h0 hpos hge hlt hfit (tailTiled_of_zero (by omega) hfit hz)
    (by simp)
  refine hinv.tiledHeap fun b hb => ?_
  obtain rfl := List.mem_singleton.mp hb
  simp only [freshBlock, List.replicate, stop_cons, stop_nil, Chunk.len]
  omega

/-- The theorem for a request of 100 bytes on a block of 300 in zero-filled memory. -/
theorem alloc_firstFit_hundred :
    ∃ bs₁ b bs₂ pre c post s',
      kHeapLCABAlloc 6 (makeHeap (fun _ => 0) ⟨0, 0, 0, 0⟩ [(4096, 300)]).st 100 =
        some (stop Chunk.len (b.addr + 20) pre + 8, s') ∧
      Served 100 (makeHeap (fun _ => 0) ⟨0, 0, 0, 0⟩ [(4096, 300)]).st bs₁ b bs₂ pre c post s' := by
  have htiled : TiledHeap (makeHeap (fun _ => 0) ⟨0, 0, 0, 0⟩ [(4096, 300)]).st
      [freshBlock (fun _ => 0) 4096 300 (List.replicate 3 ⟨0, 0, false⟩)] :=
    makeHeap_tiled (by decide) (by decide) (by decide) (by decide) fun _ _ _ => rfl
  rcases alloc_firstFit htiled 100 (le_refl 6) with
    ⟨_, h⟩ | ⟨bs₁, b, bs₂, pre, c, post, s', _, _, _, h1, h2⟩
  · exact absurd ⟨rfl, by decide⟩ (h _ List.mem_cons_self (by decide +kernel) _ List.mem_cons_self)
  · exact ⟨bs₁, b, bs₂, pre, c, post, s', h1, h2⟩

end Owmice.Heap
