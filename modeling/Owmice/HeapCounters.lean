import Owmice.HeapTags

/-! # The usage counters

`k_heapLCABAlloc` adds the requested size to `hb->used` and `heap->mem_in_use`, and 8 more when
it splits; `k_heapLCABFree` subtracts the size of the chunk, and 8 more for every merge.  The
two balance as long as a released chunk has the size that was requested, the chunk merged with
it is one that a split has made, and the merge with the preceding chunk is not taken.

Every header is given a weight: what is live in its chunk, and 8 for a header in front of the
last 24 bytes of its block, which `k_heapLCABAddBlock` leaves alone.  The counter of a block is
the sum of the weights, less the 8 of its first header.

* `weights_take`, `weights_coalesce`: what a request adds is what a release subtracts;
* `counters_ok`: in such runs no counter wraps or leaves its bounds, and both are 0 when
  everything has been released and merged;
* `counters_wrap`: a run of two calls after which a counter has wrapped. -/

namespace Owmice.Heap

open Tiling

/-! ### The counters of a state -/

/-- All chunks of the block are merged: the first one ends where `k_heapLCABAddBlock` made it
end, or behind. -/
def AllMerged (m : Mem) (hb : ℕ) : Prop := hbSize m hb ≤ chunkSize m (hb + 20) + 52

/-- The counters stay within the sizes of the blocks, and are 0 when nothing is live and all
chunks are merged. -/
structure CountersOk (blocks : List (ℕ × ℕ)) (s : HeapSys) : Prop where
  used_le : ∀ hb, OnList s.st hb → hbUsed s.st.mem hb ≤ hbSize s.st.mem hb
  memInUse_le : s.st.heap.memInUse ≤ (blocks.map Prod.snd).sum
  used_zero : s.live = [] → ∀ hb, OnList s.st hb → AllMerged s.st.mem hb → hbUsed s.st.mem hb = 0
  memInUse_zero : s.live = [] → (∀ hb, OnList s.st hb → AllMerged s.st.mem hb) →
    s.st.heap.memInUse = 0

/-- A step does not wrap a counter: a request lets none shrink, a release lets none grow. -/
def NoWrap (s s' : HeapSys) : HeapEvent → Prop
  | .alloc _ => (∀ hb, OnList s.st hb → hbUsed s.st.mem hb ≤ hbUsed s'.st.mem hb) ∧
      s.st.heap.memInUse ≤ s'.st.heap.memInUse
  | .free _ _ => (∀ hb, OnList s.st hb → hbUsed s'.st.mem hb ≤ hbUsed s.st.mem hb) ∧
      s'.st.heap.memInUse ≤ s.st.heap.memInUse
  | .write _ => True

/-- A release balances its request: the chunk has the size that was requested, a free chunk
behind it starts more than 24 bytes before the end of the block, and the merge with the
preceding chunk is not taken. -/
def Balanced (blocks : List (ℕ × ℕ)) (s : HeapSys) : HeapEvent → Prop
  | .free ptr hdrVar =>
      (∀ n, (ptr, n) ∈ s.live → chunkSize s.st.mem (sub32 ptr 8) = n) ∧
        ∀ b ∈ blocks, b.1 < ptr → ptr < b.1 + b.2 →
          (ptr + chunkSize s.st.mem (sub32 ptr 8) < b.1 + b.2 →
            flagsize s.st.mem (ptr + chunkSize s.st.mem (sub32 ptr 8)) < 2147483648 →
            ptr + chunkSize s.st.mem (sub32 ptr 8) + 24 < b.1 + b.2) ∧
          FreeIdle (freeUnflag s.st (sub32 ptr 8)) b.1 (sub32 ptr 8) hdrVar
  | _ => True

theorem Balanced.freeOk {blocks : List (ℕ × ℕ)} {s : HeapSys} {ev : HeapEvent}
    (h : Balanced blocks s ev) : FreeOk blocks s ev := by
  cases ev with
  | free ptr hdrVar => exact fun b hb h1 h2 => (h.2 b hb h1 h2).2.misses
  | alloc size => trivial
  | write m => trivial

/-! ### Weights -/

/-- The size that was requested for the live pointer `p`, 0 for other addresses. -/
def requested (live : List (ℕ × ℕ)) (p : ℕ) : ℕ := (live.lookup p).getD 0

theorem requested_cons_self (live : List (ℕ × ℕ)) (p n : ℕ) :
    requested ((p, n) :: live) p = n := by simp [requested]

theorem requested_cons_ne (live : List (ℕ × ℕ)) {p q : ℕ} (n : ℕ) (h : q ≠ p) :
    requested ((p, n) :: live) q = requested live q := by
  have : (q == p) = false := by simpa using h
  simp [requested, List.lookup_cons, this]

theorem requested_filter {live : List (ℕ × ℕ)} {p q : ℕ} (h : q ≠ p) :
    requested (live.filter fun e => e.1 ≠ p) q = requested live q := by
  induction live with
  | nil => rfl
  | cons e live ih =>
      obtain ⟨r, n⟩ := e
      by_cases hr : r = p
      · subst hr
        rw [List.filter_cons_of_neg (by simp), ih, requested_cons_ne live n h]
      · rw [List.filter_cons_of_pos (by simpa using hr)]
        by_cases hq : q = r
        · rw [hq, requested_cons_self, requested_cons_self]
        · rw [requested_cons_ne _ n hq, requested_cons_ne _ n hq, ih]

theorem requested_mem {live : List (ℕ × ℕ)} {p n : ℕ} (h : (p, n) ∈ live) :
    (p, requested live p) ∈ live := by
  cases hl : live.lookup p with
  | none =>
      have := List.lookup_eq_none_iff.mp hl _ h
      simp at this
  | some k =>
      obtain ⟨l₁, l₂, rfl, -⟩ := List.lookup_eq_some_iff.mp hl
      simp [requested, hl]

theorem mem_of_requested {live : List (ℕ × ℕ)} {p : ℕ} (h : requested live p ≠ 0) :
    (p, requested live p) ∈ live := by
  simp only [requested] at h ⊢
  cases hl : live.lookup p with
  | none => simp [hl] at h
  | some n =>
      obtain ⟨l₁, l₂, rfl, -⟩ := List.lookup_eq_some_iff.mp hl
      simp

/-- The weight of a header, where `lim` is the start of the last 24 bytes of the block. -/
def weight (live : List (ℕ × ℕ)) (lim : ℕ) (p : ℕ × Chunk) : ℕ :=
  (if p.2.used then requested live (p.1 + 8) else 0) + if p.1 < lim then 8 else 0

/-- The weight of the headers of the chunks placed from `a` on. -/
def weights (live : List (ℕ × ℕ)) (lim a : ℕ) (cs : List Chunk) : ℕ :=
  ((placed Chunk.len a cs).map (weight live lim)).sum

section weights

variable (live live' : List (ℕ × ℕ)) (lim a n : ℕ) (c : Chunk) (cs ds : List Chunk)

@[simp] theorem weights_nil : weights live lim a [] = 0 := rfl

@[simp] theorem weights_cons :
    weights live lim a (c :: cs) = weight live lim (a, c) + weights live lim (a + c.len) cs := rfl

theorem weights_append : weights live lim a (cs ++ ds) =
    weights live lim a cs + weights live lim (stop Chunk.len a cs) ds := by
  simp [weights, placed_append]

theorem weights_relink : weights live lim a (relink n cs) = weights live lim a cs := by
  cases cs with
  | nil => rfl
  | cons c cs => rfl

variable {live live' lim a n c cs ds}

theorem weights_congr (h : ∀ p ∈ placed Chunk.len a cs,
    requested live' (p.1 + 8) = requested live (p.1 + 8)) :
    weights live' lim a cs = weights live lim a cs := by
  simp only [weights]
  refine congrArg List.sum (List.map_congr_left fun p hp => ?_)
  simp only [weight, h p hp]

/-- Chunks in front of `lim` end there or before, and chunks from `lim` on are empty. -/
def Within (lim : ℕ) (p : ℕ × Chunk) : Prop :=
  (p.1 < lim → p.1 + p.2.len ≤ lim) ∧ (lim ≤ p.1 → p.2.size = 0)

/-- The chunks have room for what is live in them, so their weight fits in front of `lim`. -/
theorem weights_le (hw : ∀ p ∈ placed Chunk.len a cs, Within lim p)
    (hr : ∀ p ∈ placed Chunk.len a cs, p.2.used = true → requested live (p.1 + 8) ≤ p.2.size) :
    weights live lim a cs + a ≤ max a lim := by
  induction cs generalizing a with
  | nil => simp
  | cons c cs ih =>
      rw [placed_cons] at hw hr
      obtain ⟨⟨hw1, hw2⟩, hw⟩ := List.forall_mem_cons.mp hw
      obtain ⟨hr1, hr⟩ := List.forall_mem_cons.mp hr
      have ih := ih hw hr
      simp only at hw1 hw2 hr1
      have hwt : weight live lim (a, c) ≤ c.size + if a < lim then 8 else 0 := by
        simp only [weight]
        split
        · have := hr1 ‹_›
          omega
        · omega
      rw [weights_cons]
      simp only [Chunk.len] at *
      by_cases ha : a < lim
      · have := hw1 ha
        simp only [ha, if_true] at hwt
        omega
      · have := hw2 (by omega)
        simp only [ha, if_false] at hwt
        omega

/-- Taking a chunk adds its charge. -/
theorem weights_take {x p : ℕ} {post : List Chunk} (hp : p = x + 8) (hfree : c.used = false)
    (hw : Within lim (x, c)) :
    weights ((p, n) :: live) lim x (c.take n ++ post) =
      weights live lim x (c :: post) + c.charge n := by
  subst hp
  have hpost : weights ((x + 8, n) :: live) lim (x + c.len) post =
      weights live lim (x + c.len) post := by
    refine weights_congr fun q hq => requested_cons_ne _ _ ?_
    have := (placed_bounds Chunk.len hq).1
    have := c.len_pos
    omega
  rw [weights_append, Chunk.stop_take, hpost, weights_cons]
  simp only [Chunk.take, Chunk.charge]
  by_cases hs : n + 24 < c.size
  · have hx : x < lim := by
      by_contra hx
      have := hw.2 (by simpa using hx)
      simp only at this
      omega
    have hend := hw.1 hx
    have hrest : x + (8 + n) < lim := by
      simp only [Chunk.len] at hend
      omega
    simp only [hs, if_true, weights_cons, weights_nil, weight, requested_cons_self, Chunk.len, hx,
      hrest, hfree, Bool.false_eq_true, if_false]
    omega
  · simp only [hs, if_false, weights_cons, weights_nil, weight, requested_cons_self, if_true,
      hfree, Bool.false_eq_true]
    omega

/-- Releasing a chunk that has the size requested takes its refund away. -/
theorem weights_coalesce {x p : ℕ} {post : List Chunk} (hp : p = x + 8) (hused : c.used = true)
    (hsize : requested live p = c.size)
    (hnext : ∀ d ∈ post.head?, d.used = false → x + c.len < lim) :
    weights live lim x (c :: post) =
      weights (live.filter fun e => e.1 ≠ p) lim x (c.clear.coalesce post) + c.refund post := by
  subst hp
  have hkeep : ∀ {y : ℕ} {ds : List Chunk}, x < y →
      weights (live.filter fun e => e.1 ≠ x + 8) lim y ds = weights live lim y ds := by
    intro y ds hy
    refine weights_congr fun q hq => requested_filter ?_
    have := (placed_bounds Chunk.len hq).1
    omega
  have hlen : x < x + c.len := by have := c.len_pos; omega
  have hclear : c.clear.len = c.len := rfl
  cases post with
  | nil =>
      simp only [weights_cons, weights_nil, weight, hused, if_true, hsize, Chunk.coalesce,
        Chunk.clear, Bool.false_eq_true, if_false, Chunk.refund]
      omega
  | cons d post =>
      simp only [Chunk.coalesce, Chunk.refund]
      by_cases hd : d.used = true
      · rw [if_pos hd, if_pos hd, weights_cons live lim x c, weights_cons _ lim x c.clear, hclear,
          hkeep hlen]
        simp only [weight, hused, if_true, hsize, Chunk.clear, Bool.false_eq_true, if_false]
        omega
      · have hdlt := hnext d (by simp) (by simpa using hd)
        rw [if_neg hd, if_neg hd, weights_cons, weights_cons, weights_cons,
          Chunk.add_len_merged, weights_relink, hkeep (by omega)]
        simp only [weight, hused, if_true, hsize, hd, Bool.false_eq_true, if_false, hdlt]
        omega

end weights

/-! ### The invariant -/

/-- Where the last 24 bytes of the block start. -/
def Block.tail (b : Block) : ℕ := b.addr + b.size - 24

/-- The counter of the block is the weight of its headers, less that of the first one. -/
structure Block.Counted (live : List (ℕ × ℕ)) (b : Block) : Prop where
  used : b.used + 8 = weights live b.tail (b.addr + 20) b.chunks
  within : ∀ p ∈ b.headers, Within b.tail p

/-- The counters of the blocks and of the heap are the weights. -/
structure CountInv (blocks : List (ℕ × ℕ)) (bs : List Block) (s : HeapSys) : Prop where
  sys : SysInv blocks bs s
  counted : ∀ b ∈ bs, b.Counted s.live
  total : s.st.heap.memInUse = (bs.map Block.used).sum

/-- A live chunk has room for what was requested. -/
theorem SysInv.requested_le {blocks : List (ℕ × ℕ)} {bs : List Block} {s : HeapSys}
    (h : SysInv blocks bs s) {b : Block} (hb : b ∈ bs) :
    ∀ p ∈ b.headers, p.2.used = true → requested s.live (p.1 + 8) ≤ p.2.size := by
  intro p hp _
  by_cases h0 : requested s.live (p.1 + 8) = 0
  · omega
  · obtain ⟨d, hd, y, c, hy, hey, -, hsz, -⟩ := h.live.chunk _ (mem_of_requested h0)
    obtain rfl : y = p.1 := by simp only at hey; omega
    obtain ⟨-, rfl⟩ := h.heap.header_unique hb hd hp hy
    exact hsz

/-- The weight of the headers stays 44 bytes below the size of the block. -/
theorem SysInv.weights_le {blocks : List (ℕ × ℕ)} {bs : List Block} {s : HeapSys}
    (h : SysInv blocks bs s) {b : Block} (hb : b ∈ bs) (hsize : 52 ≤ b.size)
    (hwithin : ∀ p ∈ b.headers, Within b.tail p) :
    weights s.live b.tail (b.addr + 20) b.chunks + 44 ≤ b.size := by
  have := Heap.weights_le hwithin (h.requested_le hb)
  simp only [Block.tail] at *
  omega

theorem SysInv.size_ge {blocks : List (ℕ × ℕ)} {bs : List Block} {s : HeapSys}
    (h : SysInv blocks bs s) (hsane : ∀ b ∈ blocks, SaneBlock b) {b : Block} (hb : b ∈ bs) :
    52 ≤ b.size := (hsane _ (h.among b hb)).1

/-- The sizes of the blocks fit the address space, and the given ones. -/
theorem SysInv.sum_size {blocks : List (ℕ × ℕ)} {bs : List Block} {s : HeapSys}
    (h : SysInv blocks bs s) :
    (bs.map Block.size).sum ≤ 4294967296 ∧ (bs.map Block.size).sum ≤ (blocks.map Prod.snd).sum := by
  have hmap : bs.map Block.size = (bs.map fun b => (b.addr, b.size)).map Prod.snd := by simp
  have hpair : (bs.map fun b => (b.addr, b.size)).Pairwise ApartAt :=
    List.pairwise_map.mpr h.heap.apart
  rw [hmap]
  constructor
  · refine sum_lengths_le (hpair.imp fun hap y => hap.1 y) fun p hp => ?_
    obtain ⟨b, hb, rfl⟩ := List.mem_map.mp hp
    exact (h.heap.blocks.mem b hb).fits.le
  · have hnodup : (bs.map fun b => (b.addr, b.size)).Nodup := by
      refine hpair.imp_of_mem fun {p q} hp _ hap heq => ?_
      obtain ⟨b, hb, rfl⟩ := List.mem_map.mp hp
      subst heq
      have := (h.heap.blocks.mem b hb).size_ge
      exact hap.1 b.addr ⟨le_rfl, by simp only; omega⟩ ⟨le_rfl, by simp only; omega⟩
    have hsub : (bs.map fun b => (b.addr, b.size)) ⊆ blocks := fun p hp => by
      obtain ⟨b, hb, rfl⟩ := List.mem_map.mp hp
      exact h.among b hb
    obtain ⟨l, hperm, hl⟩ := hnodup.subperm hsub
    rw [← (hperm.map Prod.snd).sum_eq]
    exact (hl.map Prod.snd).sum_le_sum fun _ _ => Nat.zero_le _

theorem Block.Counted.congr {b : Block} {live live' : List (ℕ × ℕ)} (h : b.Counted live)
    (hr : ∀ p ∈ b.headers, requested live' (p.1 + 8) = requested live (p.1 + 8)) :
    b.Counted live' := ⟨h.used.trans (weights_congr hr).symm, h.within⟩

/-- The counters of counted blocks stay 52 bytes below their sizes, so their sum is a word. -/
theorem sum_used_lt {blocks : List (ℕ × ℕ)} {bs : List Block} {s : HeapSys}
    (hsane : ∀ b ∈ blocks, SaneBlock b) (h : SysInv blocks bs s)
    (hc : ∀ b ∈ bs, b.Counted s.live) :
    (∀ b ∈ bs, b.used + 52 ≤ b.size) ∧ (bs.map Block.used).sum ≤ (bs.map Block.size).sum ∧
      (bs.map Block.used).sum < 4294967296 := by
  have hle : ∀ b ∈ bs, b.used + 52 ≤ b.size := fun b hb => by
    have := h.weights_le hb (h.size_ge hsane hb) (hc b hb).within
    have := (hc b hb).used
    omega
  have hsum : ∀ l : List Block, (∀ b ∈ l, b.used + 52 ≤ b.size) →
      (l.map Block.used).sum + 52 * l.length ≤ (l.map Block.size).sum := by
    intro l hl
    induction l with
    | nil => simp
    | cons b l ih =>
        obtain ⟨hb, hl⟩ := List.forall_mem_cons.mp hl
        have := ih hl
        simp only [List.map_cons, List.sum_cons, List.length_cons]
        omega
  have hbs := hsum bs hle
  have hsize := h.sum_size.1
  refine ⟨hle, by omega, ?_⟩
  cases bs with
  | nil => simp
  | cons b bs =>
      rw [List.length_cons] at hbs
      omega

/-- Headers of the other blocks lie elsewhere. -/
theorem SysInv.header_ne {blocks : List (ℕ × ℕ)} {bs₁ bs₂ : List Block} {b d : Block} {s : HeapSys}
    (h : SysInv blocks (bs₁ ++ b :: bs₂) s) {x : ℕ} {c : Chunk} (hx : (x, c) ∈ b.headers)
    (hd : d ∈ bs₁ ++ bs₂) : ∀ p ∈ d.headers, p.1 ≠ x := by
  rintro p hp rfl
  have hdm : d ∈ bs₁ ++ b :: bs₂ := by
    simp only [List.mem_append, List.mem_cons] at hd ⊢
    tauto
  have h1 := ((h.heap.blocks.mem b (by simp)).hdrs _ hx).inside
  have h2 := ((h.heap.blocks.mem d hdm).hdrs _ hp).inside
  have h3 := (placed_bounds Chunk.len hx).1
  have h4 := (placed_bounds Chunk.len hp).1
  simp only at h1
  exact (pairwise_apart_others h.heap.apart d hd).1 p.1 ⟨by simp only; omega, by simp only; omega⟩
    ⟨by simp only; omega, by simp only; omega⟩

/-- When one block changes, the counters of the others in memory do not. -/
theorem SysInv.used_after {blocks : List (ℕ × ℕ)} {bs₁ bs₂ : List Block} {b b' : Block}
    {s s' : HeapSys} (h : SysInv blocks (bs₁ ++ b :: bs₂) s)
    (h' : SysInv blocks (bs₁ ++ b' :: bs₂) s') (ha : b'.addr = b.addr) {hb : ℕ}
    (hl : OnList s.st hb) :
    (hbUsed s.st.mem hb = b.used ∧ hbUsed s'.st.mem hb = b'.used) ∨
      hbUsed s'.st.mem hb = hbUsed s.st.mem hb := by
  obtain ⟨d, hd, rfl⟩ := h.heap.of_onList hl
  have hdu := (h.heap.blocks.mem d hd).used_eq
  simp only [List.mem_append, List.mem_cons] at hd
  have hkept : d ∈ bs₁ ++ b' :: bs₂ → hbUsed s'.st.mem d.addr = hbUsed s.st.mem d.addr :=
    fun hd' => (h'.heap.blocks.mem d hd').used_eq.trans hdu.symm
  rcases hd with hd | rfl | hd
  · exact .inr (hkept (by simp [hd]))
  · refine .inl ⟨hdu, ?_⟩
    rw [← ha]
    exact (h'.heap.blocks.mem b' (by simp)).used_eq
  · exact .inr (hkept (by simp [hd]))

theorem sum_used_update (bs₁ bs₂ : List Block) (b : Block) :
    ((bs₁ ++ b :: bs₂).map Block.used).sum =
      b.used + ((bs₁ ++ bs₂).map Block.used).sum := by
  simp only [List.map_append, List.map_cons, List.sum_append, List.sum_cons]
  omega

/-! ### Steps -/

theorem within_take {lim x n : ℕ} {c : Chunk} (hw : Within lim (x, c)) :
    ∀ p ∈ placed Chunk.len x (c.take n), Within lim p := by
  obtain ⟨h1, h2⟩ := hw
  simp only [Chunk.len] at h1 h2
  unfold Chunk.take
  split
  · simp only [placed_cons, placed_nil, List.forall_mem_cons, Within, Chunk.len]
    refine ⟨⟨fun h => ?_, fun h => ?_⟩, ⟨fun h => ?_, fun h => ?_⟩, by simp⟩
    · have := h1 h
      omega
    · have := h2 h
      omega
    · have := h1 (by omega)
      omega
    · by_cases hx : x < lim
      · have := h1 hx
        omega
      · have := h2 (by omega)
        omega
  · simp only [placed_cons, placed_nil, List.forall_mem_cons, Within, Chunk.len]
    exact ⟨⟨h1, h2⟩, by simp⟩

theorem within_coalesce {lim x : ℕ} {c : Chunk} {post : List Chunk}
    (hw : ∀ p ∈ placed Chunk.len x (c :: post), Within lim p)
    (hnext : ∀ d ∈ post.head?, d.used = false → x + c.len < lim) :
    ∀ p ∈ placed Chunk.len x (c.clear.coalesce post), Within lim p := by
  rw [placed_cons, List.forall_mem_cons] at hw
  obtain ⟨hc, hw⟩ := hw
  cases post with
  | nil => simpa [Chunk.coalesce, Within, Chunk.len, Chunk.clear] using hc
  | cons d post =>
      simp only [Chunk.coalesce]
      rw [placed_cons, List.forall_mem_cons] at hw
      obtain ⟨hd, hw⟩ := hw
      by_cases hu : d.used = true
      · rw [if_pos hu]
        simp only [placed_cons, List.forall_mem_cons]
        exact ⟨hc, hd, hw⟩
      · have hlt := hnext d (by simp) (by simpa using hu)
        have hend := hd.1 hlt
        have hstop := Chunk.add_len_merged x c d
        rw [if_neg hu, placed_cons, List.forall_mem_cons, hstop]
        refine ⟨⟨fun _ => ?_, fun hx => ?_⟩, ?_⟩
        · exact hstop.trans_le hend
        · simp only at hx hend
          omega
        · cases post with
          | nil => simp [relink]
          | cons e post =>
              simp only [relink, placed_cons, List.forall_mem_cons] at hw ⊢
              exact hw

/-- Chunks in front of the one at `x` weigh what they weighed before its pointer changed. -/
theorem weights_before {live live' : List (ℕ × ℕ)} {a x : ℕ} {pre : List Chunk}
    (hx : x = stop Chunk.len a pre)
    (hkeep : ∀ q, q ≠ x + 8 → requested live' q = requested live q) (lim : ℕ) :
    weights live' lim a pre = weights live lim a pre := by
  refine weights_congr fun q hq => hkeep _ ?_
  have := (placed_bounds Chunk.len hq).2
  have := q.2.len_pos
  omega

/-- One block changes, and live pointers of the others do not. -/
theorem CountInv.counted_update {blocks : List (ℕ × ℕ)} {bs₁ bs₂ : List Block} {b b' : Block}
    {s : HeapSys} {live : List (ℕ × ℕ)} (h : CountInv blocks (bs₁ ++ b :: bs₂) s) {x : ℕ}
    {c : Chunk} (hxc : (x, c) ∈ b.headers) (hb' : b'.Counted live)
    (hlive : ∀ q, q ≠ x + 8 → requested live q = requested s.live q) :
    ∀ d ∈ bs₁ ++ b' :: bs₂, d.Counted live := by
  have hothers : ∀ d ∈ bs₁ ++ bs₂, d.Counted live := fun d hd => by
    have hdm : d ∈ bs₁ ++ b :: bs₂ := by
      simp only [List.mem_append, List.mem_cons] at hd ⊢
      tauto
    refine (h.counted d hdm).congr fun q hq => hlive _ ?_
    have := h.sys.header_ne hxc hd q hq
    omega
  intro d hd
  simp only [List.mem_append, List.mem_cons] at hd hothers
  rcases hd with hd | rfl | hd
  · exact hothers d (.inl hd)
  · exact hb'
  · exact hothers d (.inr hd)

/-- A request keeps the invariant, and lets no counter shrink. -/
theorem alloc_countInv {blocks : List (ℕ × ℕ)} {bs : List Block} {s : HeapSys} {size fuel p : ℕ}
    {st : HeapState} (hsane : ∀ b ∈ blocks, SaneBlock b) (h : CountInv blocks bs s)
    (hs : kHeapLCABAlloc fuel s.st size = some (p, st)) {s' : HeapSys}
    (hs' : s' = ⟨st, if p = 0 then s.live else (p, size) :: s.live⟩) :
    (∃ bs', CountInv blocks bs' s') ∧ NoWrap s s' (.alloc size) := by
  rcases alloc_sysInv h.sys hs with ⟨hp, rfl⟩ |
    ⟨bs₁, b, bs₂, pre, c, post, u, rfl, hch, hfind, hfree, hfit, hp, h'⟩
  · obtain rfl : s' = s := by simpa [hp] using hs'
    exact ⟨⟨bs, h⟩, fun _ _ => le_rfl, le_rfl⟩
  have hp0 : p ≠ 0 := by omega
  rw [if_neg hp0] at hs'
  have hb : b ∈ bs₁ ++ b :: bs₂ := by simp
  have hbat := h.sys.heap.blocks.mem b hb
  have hcb := h.counted b hb
  obtain ⟨hc, hlo⟩ := hdrAt_split hbat hch rfl
  set x := stop Chunk.len (b.addr + 20) pre with hx
  have hxc := Block.mem_headers hch hx
  have hst : st = allocTake s.st b.addr x size := by
    simp only [kHeapLCABAlloc, hfind, Option.some.injEq, Prod.mk.injEq] at hs
    exact hs.2.symm
  obtain ⟨hu, hheap⟩ := allocTake_counters hc hbat.fits hlo hfree hfit
  rw [← hst, show hbUsed s.st.mem b.addr = b.used from hbat.used_eq] at hu
  rw [← hst] at hheap
  -- the block that has served the request
  obtain ⟨b', hb'⟩ : ∃ b' : Block, b' =
    { b with used := u, chunks := pre ++ (c.take size ++ post) } := ⟨_, rfl⟩
  rw [← hb', ← hs'] at h'
  have hbm' : b' ∈ bs₁ ++ b' :: bs₂ := by simp
  have huu : hbUsed st.mem b.addr = u := by
    have := (h'.heap.blocks.mem b' hbm').used_eq
    simpa only [hb', hs'] using this
  have hkeep : ∀ q, q ≠ x + 8 → requested s'.live q = requested s.live q := fun q hq => by
    rw [hs']
    exact requested_cons_ne _ _ (hp ▸ hq)
  have hwithin : ∀ q ∈ b'.headers, Within b.tail q := by
    have hold := hcb.within
    simp only [Block.headers, hch, hb', placed_append, placed_cons, List.forall_mem_append,
      List.forall_mem_cons, Chunk.stop_take, ← hx] at hold ⊢
    exact ⟨hold.1, within_take hold.2.1, hold.2.2⟩
  have hweights : weights s'.live b.tail (b.addr + 20) b'.chunks =
      b.used + 8 + c.charge size := by
    have hpre := weights_before hx hkeep b.tail
    have htake : weights ((p, size) :: s.live) b.tail x (c.take size ++ post) =
        weights s.live b.tail x (c :: post) + c.charge size :=
      weights_take hp hfree (hcb.within _ hxc)
    have hchunks : b'.chunks = pre ++ (c.take size ++ post) := by rw [hb']
    have hlive : s'.live = (p, size) :: s.live := by rw [hs']
    rw [hchunks, weights_append _ _ _ pre, ← hx, hpre, hlive, htake, hcb.used, hch,
      weights_append _ _ _ pre, ← hx]
    omega
  have hroom := h'.weights_le hbm' (by simpa only [hb'] using h.sys.size_ge hsane hb)
    (by simpa only [hb', Block.tail] using hwithin)
  have htail : b'.tail = b.tail := by simp only [Block.tail, hb']
  have haddr : b'.addr = b.addr := by rw [hb']
  have hsize : b'.size = b.size := by rw [hb']
  rw [htail, haddr, hsize, hweights] at hroom
  have huval : u = b.used + c.charge size := by
    rw [← huu, hu, w32_of_lt (by have := hbat.fits; omega)]
  have hused' : b'.used = b.used + c.charge size := by rw [hb', ← huval]
  have hcb' : b'.Counted s'.live := by
    refine ⟨?_, htail ▸ hwithin⟩
    rw [htail, haddr, hweights, hused']
    omega
  have hcounted := h.counted_update hxc hcb' hkeep
  have htotal : s'.st.heap.memInUse = s.st.heap.memInUse + c.charge size := by
    have hlt := (sum_used_lt hsane h' hcounted).2.2
    rw [sum_used_update, hused'] at hlt
    rw [show s'.st.heap = st.heap by rw [hs'], hheap, h.total, sum_used_update]
    exact w32_of_lt (by omega)
  refine ⟨⟨_, h', hcounted, ?_⟩, fun hb hl => ?_, by omega⟩
  · rw [htotal, h.total, sum_used_update, sum_used_update, hused']
    omega
  · rcases h.sys.used_after h' haddr hl with ⟨h1, h2⟩ | h1
    · omega
    · omega

theorem Chunk.refund_clear (c : Chunk) (post : List Chunk) :
    c.clear.refund post = c.refund post := by
  cases post with
  | nil => rfl
  | cons d post => rfl

/-- The first header of a block weighs 8. -/
theorem BlockAt.le_weights {m : Mem} {b : Block} (h : BlockAt m b) (hge : 52 ≤ b.size)
    (live : List (ℕ × ℕ)) : 8 ≤ weights live b.tail (b.addr + 20) b.chunks := by
  have hreach := h.reach
  cases hcs : b.chunks with
  | nil =>
      rw [hcs, stop_nil] at hreach
      omega
  | cons c cs =>
      have hlt : b.addr + 20 < b.tail := by
        simp only [Block.tail]
        omega
      simp only [weights_cons, weight, hlt, if_true]
      omega

/-- If a free header behind a chunk starts more than 24 bytes before the end of the block, a free
chunk behind it is not the tail. -/
theorem BlockAt.next_lt_tail {m : Mem} {b : Block} {pre post : List Chunk} {c : Chunk} {x : ℕ}
    (h : BlockAt m b) (hch : b.chunks = pre ++ c :: post)
    (hx : x = stop Chunk.len (b.addr + 20) pre)
    (hreal : x + c.len < b.addr + b.size → flagsize m (x + c.len) < 2147483648 →
      x + c.len + 24 < b.addr + b.size) :
    ∀ d ∈ post.head?, d.used = false → x + c.len < b.tail := by
  intro d hd hd0
  cases post with
  | nil => simp at hd
  | cons e post =>
      obtain rfl : e = d := by simpa using hd
      have he := hdrAt_next h hch hx
      have hein := he.inside
      rw [he.free_iff] at hreal
      have := hreal (by omega) hd0
      simp only [Block.tail]
      omega

/-- A release that balances its request keeps the invariant, and lets no counter grow. -/
theorem free_countInv {blocks : List (ℕ × ℕ)} {bs : List Block} {s : HeapSys}
    {ptr n hdrVar fuel : ℕ} {st : HeapState} (hsane : ∀ b ∈ blocks, SaneBlock b)
    (h : CountInv blocks bs s) (hlive : (ptr, n) ∈ s.live)
    (hok : Balanced blocks s (.free ptr hdrVar))
    (hs : kHeapLCABFree fuel s.st hdrVar ptr = some st) {s' : HeapSys}
    (hs' : s' = ⟨st, s.live.filter (fun e => e.1 ≠ ptr)⟩) :
    (∃ bs', CountInv blocks bs' s') ∧ NoWrap s s' (.free ptr hdrVar) := by
  obtain ⟨bs₁, b, bs₂, pre, c, post, u, rfl, hch, hp, hused, hlt, hst, h'⟩ :=
    free_sysInv h.sys hlive hok.freeOk hs
  have hb : b ∈ bs₁ ++ b :: bs₂ := by simp
  have hbat := h.sys.heap.blocks.mem b hb
  have hcb := h.counted b hb
  have hge := h.sys.size_ge hsane hb
  obtain ⟨hc, hlo⟩ := hdrAt_split hbat hch rfl
  set x := stop Chunk.len (b.addr + 20) pre with hx
  have hxc := Block.mem_headers hch hx
  have hfit := hbat.fits
  have hci := hc.inside
  have hsub : sub32 ptr 8 = x := by rw [hp, sub32_of_le (by omega) (by omega)]; omega
  -- what the release finds
  obtain ⟨hsize, hblk⟩ := hok
  obtain ⟨hreal, hidle⟩ := hblk _ (h.sys.among b hb) (by simp only; omega) hlt
  simp only [hsub, hc.chunkSize] at hsize hreal hidle
  have hreq : requested s.live ptr = c.size := (hsize _ (requested_mem hlive)).symm
  have hat : ptr + c.size = x + c.len := by
    simp only [Chunk.len]
    omega
  rw [hat] at hreal
  have hnext := hbat.next_lt_tail hch hx hreal
  have hin : x + 8 + c.size ≤ b.addr + b.size := by
    obtain ⟨h1, h2⟩ := hcb.within _ hxc
    simp only [Chunk.len, Block.tail] at h1 h2
    omega
  -- the counters after it
  obtain ⟨k1, -⟩ := clear_blockAt hbat hch hx hin
  obtain ⟨hu, hheap⟩ := freeIn_counters k1 rfl hx hin hidle hst
  rw [Chunk.refund_clear] at hu hheap
  simp only at hu
  obtain ⟨b', hb'⟩ : ∃ b' : Block, b' =
    { b with used := u, chunks := pre ++ c.clear.coalesce post } := ⟨_, rfl⟩
  rw [← hb', ← hs'] at h'
  have hbm' : b' ∈ bs₁ ++ b' :: bs₂ := by simp
  have huu : hbUsed st.mem b.addr = u := by
    have := (h'.heap.blocks.mem b' hbm').used_eq
    simpa only [hb', hs'] using this
  have htail : b'.tail = b.tail := by simp only [Block.tail, hb']
  have haddr : b'.addr = b.addr := by rw [hb']
  have hwithin : ∀ q ∈ b'.headers, Within b'.tail q := by
    have hold := hcb.within
    simp only [Block.headers, hch, placed_append, List.forall_mem_append, ← hx] at hold
    rw [htail]
    simp only [Block.headers, hb', placed_append, List.forall_mem_append, ← hx]
    exact ⟨hold.1, within_coalesce hold.2 hnext⟩
  have hlive' : s'.live = s.live.filter (fun e => e.1 ≠ ptr) := by rw [hs']
  have hkeep : ∀ q, q ≠ x + 8 → requested s'.live q = requested s.live q := fun q hq => by
    rw [hlive']
    exact requested_filter (hp ▸ hq)
  have hweights : b.used + 8 =
      weights s'.live b.tail (b.addr + 20) b'.chunks + c.refund post := by
    have hpre := weights_before hx hkeep b.tail
    have hmerge := weights_coalesce hp hused hreq hnext
    have hchunks : b'.chunks = pre ++ c.clear.coalesce post := by rw [hb']
    rw [hcb.used, hch, hchunks, weights_append _ _ _ pre, weights_append _ _ _ pre, ← hx, hpre,
      hmerge, hlive']
    omega
  -- the first header of the block keeps its 8
  have hsize' : b'.size = b.size := by rw [hb']
  have hfirst := (h'.heap.blocks.mem b' hbm').le_weights (hsize'.symm ▸ hge) s'.live
  rw [htail, haddr] at hfirst
  have hrefund : c.refund post ≤ b.used := by omega
  have hbu := (sum_used_lt hsane h.sys h.counted).1 b hb
  have huval : u = b.used - c.refund post := by
    rw [← huu, hu, sub32_of_le hrefund (by omega)]
  have hused' : b'.used = b.used - c.refund post := by rw [hb', ← huval]
  have hcb' : b'.Counted s'.live := by
    refine ⟨?_, hwithin⟩
    rw [htail, haddr, hused']
    omega
  have hcounted := h.counted_update hxc hcb' hkeep
  have htotal : s'.st.heap.memInUse = s.st.heap.memInUse - c.refund post := by
    have hlt := (sum_used_lt hsane h.sys h.counted).2.2
    rw [← h.total] at hlt
    have hle : c.refund post ≤ s.st.heap.memInUse := by
      rw [h.total, sum_used_update]
      omega
    rw [show s'.st.heap = st.heap by rw [hs'], hheap]
    exact sub32_of_le hle hlt
  refine ⟨⟨_, h', hcounted, ?_⟩, fun hb hl => ?_, by omega⟩
  · rw [htotal, h.total, sum_used_update, sum_used_update, hused']
    omega
  · rcases h.sys.used_after h' haddr hl with ⟨h1, h2⟩ | h1
    · omega
    · omega

/-- Every step that balances keeps the invariant and wraps no counter. -/
theorem step_countInv {blocks : List (ℕ × ℕ)} {s s' : HeapSys} {ev : HeapEvent}
    (hsane : ∀ b ∈ blocks, SaneBlock b) (h : ∃ bs, CountInv blocks bs s)
    (hok : Balanced blocks s ev) (hs : HeapStep blocks s ev s') :
    (∃ bs, CountInv blocks bs s') ∧ NoWrap s s' ev := by
  obtain ⟨bs, h⟩ := h
  cases hs with
  | alloc ha => exact alloc_countInv hsane h ha rfl
  | free hlive hf => exact free_countInv hsane h hlive hok hf rfl
  | write hm => exact ⟨⟨bs, write_sysInv h.sys hm, h.counted, h.total⟩, trivial⟩

/-! ### Runs -/

theorem HeapInv.onList {s : HeapState} {bs : List Block} (h : HeapInv s bs) :
    ∀ b ∈ bs, OnList s b.addr := by
  have hwalk : ∀ (bs : List Block) (hb : ℕ), BlocksAt s.mem hb bs → (hb ≠ 0 → OnList s hb) →
      ∀ b ∈ bs, OnList s b.addr := by
    intro bs
    induction bs with
    | nil => simp
    | cons c bs ih =>
        rintro hb ⟨rfl, hc, hrest⟩ hl b hb
        have hcl := hl hc.addr_pos.ne'
        rcases List.mem_cons.mp hb with rfl | hb
        · exact hcl
        · exact ih _ hrest (fun h0 => .next hcl h0) b hb
  exact hwalk bs _ h.blocks .first

/-- A block without live payloads whose chunks are all merged has the counter 0. -/
theorem BlockAt.used_zero {m : Mem} {b : Block} (h : BlockAt m b) (hge : 52 ≤ b.size)
    (hc : b.Counted []) (hm : AllMerged m b.addr) : b.used = 0 := by
  have hlt : b.addr + 20 < b.tail := by simp only [Block.tail]; omega
  have hused := hc.used
  have hwithin := hc.within
  have hreach := h.reach
  have hhdrs := h.hdrs
  simp only [Block.headers] at hwithin hhdrs
  cases hcs : b.chunks with
  | nil =>
      rw [hcs, stop_nil] at hreach
      omega
  | cons c cs =>
      rw [hcs, placed_cons, List.forall_mem_cons] at hwithin hhdrs
      have hend := hwithin.1.1 hlt
      rw [AllMerged, h.size_eq, hhdrs.1.chunkSize] at hm
      have hrest : weights [] b.tail (b.addr + 20 + c.len) cs + (b.addr + 20 + c.len) ≤
          max (b.addr + 20 + c.len) b.tail := weights_le hwithin.2 (by simp [requested])
      rw [hcs, weights_cons] at hused
      have hw : weight [] b.tail (b.addr + 20, c) = 8 := by simp [weight, requested, hlt]
      simp only [Chunk.len, Block.tail] at *
      omega

theorem CountInv.countersOk {blocks : List (ℕ × ℕ)} {bs : List Block} {s : HeapSys}
    (hsane : ∀ b ∈ blocks, SaneBlock b) (h : CountInv blocks bs s) : CountersOk blocks s := by
  obtain ⟨hle, hsum, -⟩ := sum_used_lt hsane h.sys h.counted
  have hzero : s.live = [] → ∀ b ∈ bs, AllMerged s.st.mem b.addr → b.used = 0 := fun hl b hb hm =>
    (h.sys.heap.blocks.mem b hb).used_zero (h.sys.size_ge hsane hb) (hl ▸ h.counted b hb) hm
  refine ⟨fun hb hl => ?_, ?_, fun hl hb hon hm => ?_, fun hl hm => ?_⟩
  · obtain ⟨b, hbm, rfl⟩ := h.sys.heap.of_onList hl
    have hat := h.sys.heap.blocks.mem b hbm
    have := hle b hbm
    rw [hat.used_eq, hat.size_eq]
    omega
  · rw [h.total]
    exact hsum.trans h.sys.sum_size.2
  · obtain ⟨b, hbm, rfl⟩ := h.sys.heap.of_onList hon
    rw [(h.sys.heap.blocks.mem b hbm).used_eq]
    exact hzero hl b hbm hm
  · rw [h.total]
    refine List.sum_eq_zero fun k hk => ?_
    obtain ⟨b, hb, rfl⟩ := List.mem_map.mp hk
    exact hzero hl b hb (hm _ (h.sys.heap.onList b hb))

/-- A block made in zero-filled memory. -/
theorem freshBlock_counted {m : Mem} {b : ℕ × ℕ} (hb : SaneBlock b) :
    (freshBlock m b.1 b.2 (List.replicate 3 ⟨0, 0, false⟩)).Counted [] := by
  obtain ⟨hge, hlt, hfit⟩ := hb
  have htail : (freshBlock m b.1 b.2 (List.replicate 3 ⟨0, 0, false⟩)).tail = b.1 + b.2 - 24 := rfl
  constructor
  · rw [htail]
    have h1 : b.1 + 20 < b.1 + b.2 - 24 := by omega
    have h2 : b.1 + 20 + (8 + (b.2 - 52)) = b.1 + b.2 - 24 := by omega
    have h3 : ∀ k, ¬ b.1 + b.2 - 24 + k < b.1 + b.2 - 24 := by omega
    simp [freshBlock, weight, Chunk.len, h1, h2, Nat.add_assoc]
  · rw [htail]
    simp only [Block.headers, freshBlock, List.replicate, placed_cons, placed_nil,
      List.forall_mem_cons, Within, Chunk.len]
    -- the first chunk ends where the last 24 bytes start
    exact ⟨⟨fun _ => by omega, fun _ => by omega⟩, ⟨fun _ => by omega, fun _ => trivial⟩,
      ⟨fun _ => by omega, fun _ => trivial⟩, ⟨fun _ => by omega, fun _ => trivial⟩, by simp⟩

theorem addBlocks_memInUse (blocks : List (ℕ × ℕ)) (s : HeapState) :
    (blocks.foldl (fun s b => kHeapLCABAddBlock s b.1 b.2) s).heap.memInUse = s.heap.memInUse := by
  induction blocks generalizing s with
  | nil => rfl
  | cons b blocks ih => exact ih _

/-- The counters stay right in every state of a run from zero-filled blocks that lie apart, when
every release balances its request; and no step of such a run wraps a counter. -/
theorem counters_ok {m : Mem} {heap : KHeapLCAB} {blocks : List (ℕ × ℕ)}
    {tr : List (HeapSys × HeapEvent)} {s : HeapSys}
    (hsane : ∀ b ∈ blocks, SaneBlock b ∧ ZeroBlock m b) (hap : blocks.Pairwise ApartAt)
    (hrun : Run (HeapStep blocks) (makeHeap m heap blocks) tr s)
    (hok : ∀ p ∈ tr, Balanced blocks p.1 p.2) :
    ∀ x ∈ visited tr s, CountersOk blocks x ∧
      ∀ ev y, HeapStep blocks x ev y → Balanced blocks x ev → NoWrap x y ev := by
  have hs : ∀ b ∈ blocks, SaneBlock b := fun b hb => (hsane b hb).1
  have hstart : ∃ bs, CountInv blocks bs (makeHeap m heap blocks) := by
    obtain ⟨bs, h, hP⟩ := makeHeap_forall (P := fun b => b.Counted [] ∧ b.used = 0) hsane hap
      fun b hb _ _ => ⟨freshBlock_counted (hs b hb), rfl⟩
    refine ⟨bs, h, fun b hb => (hP b hb).1, ?_⟩
    have h0 : (makeHeap m heap blocks).st.heap.memInUse = 0 := addBlocks_memInUse _ _
    rw [h0, List.sum_eq_zero]
    intro k hk
    obtain ⟨b, hb, rfl⟩ := List.mem_map.mp hk
    exact (hP b hb).2
  have hinv := hrun.invariant_visited (G := Balanced blocks)
    (I := fun y => ∃ bs, CountInv blocks bs y)
    (fun _ _ _ h hg hstep => (step_countInv hs h hg hstep).1) hstart hok
  intro x hx
  obtain ⟨bs, h⟩ := hinv x hx
  exact ⟨h.countersOk hs, fun ev y hstep hb => (step_countInv hs ⟨bs, h⟩ hb hstep).2⟩

/-! ### A counter that wraps -/

/-- The state after a request of 100 bytes on a block of 300. -/
def splitOnce : HeapSys :=
  ⟨afterAlloc (makeHeap (fun _ => 0) ⟨0, 0, 0, 0⟩ [(4096, 300)]).st 100, [(4124, 100)]⟩

/-- The theorem for a run of one request, which splits the chunk, and its release. -/
theorem counters_ok_hundred :
    CountersOk [(4096, 300)] (makeHeap (fun _ => 0) ⟨0, 0, 0, 0⟩ [(4096, 300)]) ∧
      CountersOk [(4096, 300)] ⟨afterFree splitOnce.st 4124, []⟩ ∧
      CountersOk [(4096, 300)] splitOnce ∧ ∀ ev y, HeapStep [(4096, 300)] splitOnce ev y →
        Balanced [(4096, 300)] splitOnce ev → NoWrap splitOnce y ev := by
  have hrun : Run (HeapStep [(4096, 300)]) (makeHeap (fun _ => 0) ⟨0, 0, 0, 0⟩ [(4096, 300)])
      [(makeHeap (fun _ => 0) ⟨0, 0, 0, 0⟩ [(4096, 300)], .alloc 100), (splitOnce, .free 4124 0)]
      ⟨afterFree splitOnce.st 4124, []⟩ :=
    .cons (afterAlloc_step (by decide +kernel) (by decide)) <|
      .cons (afterFree_step (n := 100) List.mem_cons_self (by decide +kernel)) (.nil _)
  have hsub : sub32 4124 8 = 4116 := by decide +kernel
  have hsize : chunkSize splitOnce.st.mem 4116 = 100 := by decide +kernel
  have hprev : freePhdr (freeClear (freeUnflag splitOnce.st 4116) 4096 4116).mem 4116 0 = 0 := by
    decide +kernel
  have hbalanced : Balanced [(4096, 300)] splitOnce (.free 4124 0) := by
    refine ⟨fun n hn => ?_, fun b hb _ _ => ?_⟩
    · obtain rfl : n = 100 := by simpa [splitOnce] using hn
      rw [hsub, hsize]
    · obtain rfl := List.mem_singleton.mp hb
      rw [hsub, hsize]
      exact ⟨fun _ _ => by decide, fun hne => absurd hprev hne⟩
  have hok : ∀ p ∈ [(makeHeap (fun _ => 0) ⟨0, 0, 0, 0⟩ [(4096, 300)], HeapEvent.alloc 100),
      (splitOnce, .free 4124 0)], Balanced [(4096, 300)] p.1 p.2 := by
    rw [List.forall_mem_cons, List.forall_mem_singleton]
    exact ⟨trivial, hbalanced⟩
  have hall := counters_ok (by simp [SaneBlock, ZeroBlock]) (by simp) hrun hok
  rw [visited_cons, visited_cons, visited_nil, List.forall_mem_cons, List.forall_mem_cons,
    List.forall_mem_singleton] at hall
  exact ⟨hall.1.1, hall.2.2.1, hall.2.1⟩

/-- Requests of 240 bytes on a block of 300, and their release: the request takes the chunk of
248 bytes whole. -/
def whole0 : HeapSys := makeHeap (fun _ => 0) ⟨0, 0, 0, 0⟩ [(4096, 300)]
def whole1 : HeapSys := ⟨afterAlloc whole0.st 240, [(4124, 240)]⟩
def whole2 : HeapSys := ⟨afterFree whole1.st 4124, []⟩

theorem whole_run : Run (HeapStep [(4096, 300)]) whole0
    [(whole0, .alloc 240), (whole1, .free 4124 0)] whole2 :=
  .cons (afterAlloc_step (by decide +kernel) (by decide)) <|
    .cons (afterFree_step (n := 240) List.mem_cons_self (by decide +kernel)) (.nil _)

/-- The release of a chunk that is larger than the request wraps the counter of the block. -/
theorem counters_wrap :
    ¬ ∀ (m : Mem) (heap : KHeapLCAB) (blocks : List (ℕ × ℕ)),
      (∀ b ∈ blocks, SaneBlock b ∧ ZeroBlock m b) → blocks.Pairwise ApartAt →
      ∀ (tr : List (HeapSys × HeapEvent)) (s : HeapSys),
        Run (HeapStep blocks) (makeHeap m heap blocks) tr s →
        (∀ p ∈ tr, ∀ m', p.2 ≠ .write m') → ∀ x ∈ visited tr s, CountersOk blocks x := by
  intro h
  have hok := h (fun _ => 0) ⟨0, 0, 0, 0⟩ [(4096, 300)] (by simp [SaneBlock, ZeroBlock])
    (by simp) _ _ whole_run (by simp) whole2 (by simp [visited])
  have hfirst : whole2.st.heap.fblock = 4096 := by decide +kernel
  have hle := hok.used_le 4096 (hfirst ▸ .first (by rw [hfirst]; decide))
  exact absurd hle (by decide +kernel)

end Owmice.Heap
