import Owmice.HeapOps
import Owmice.Runs

/-! # Runs of the heap

A heap is made by `k_heapLCABInit` and calls of `k_heapLCABAddBlock`, and then used: requests,
releases of live pointers, and between them the writes of the rest of the system, which may
change live payloads and everything outside the blocks, the kernel's stack included.

The invariant `SysInv` ties the live pointers to used chunks of the abstract heap.  It is kept
by every step except a release whose merge with the preceding chunk, taken from the address of
a local variable, writes into a block (`FreeOk`).  It holds initially when the bytes behind
the first chunk, which the walks also read as headers, fit the block (`TailTiled`).

* `alloc_sysInv`, `free_sysInv`, `write_sysInv`: what the steps do to the invariant;
* `SysInv.newest_safe`: the payload of the last request lies in the block and meets no other. -/

namespace Owmice.Heap

open Tiling

/-- The heap with the payloads that are live: pointer and requested size. -/
structure HeapSys where
  st : HeapState
  live : List (ℕ × ℕ)

inductive HeapEvent where
  | alloc (size : ℕ)
  | free (ptr hdrVar : ℕ)
  | write (m : Mem)

/-- Byte `y` lies in one of the blocks, each given by address and size. -/
def InBlocks (blocks : List (ℕ × ℕ)) (y : ℕ) : Prop := ∃ b ∈ blocks, b.1 ≤ y ∧ y < b.1 + b.2

/-- Byte `y` lies in a live payload. -/
def InLive (live : List (ℕ × ℕ)) (y : ℕ) : Prop := ∃ e ∈ live, e.1 ≤ y ∧ y < e.1 + e.2

/-- One step of the system; a call that does not return is no step. -/
inductive HeapStep (blocks : List (ℕ × ℕ)) : HeapSys → HeapEvent → HeapSys → Prop
  | alloc {s : HeapSys} {size fuel p : ℕ} {st : HeapState} :
      kHeapLCABAlloc fuel s.st size = some (p, st) →
      HeapStep blocks s (.alloc size)
        ⟨st, if p = 0 then s.live else (p, size) :: s.live⟩
  | free {s : HeapSys} {ptr n hdrVar fuel : ℕ} {st : HeapState} :
      (ptr, n) ∈ s.live → kHeapLCABFree fuel s.st hdrVar ptr = some st →
      HeapStep blocks s (.free ptr hdrVar) ⟨st, s.live.filter (fun e => e.1 ≠ ptr)⟩
  | write {s : HeapSys} {m : Mem} :
      (∀ y, InBlocks blocks y → ¬ InLive s.live y → m y = s.st.mem y) →
      HeapStep blocks s (.write m) ⟨{ s.st with mem := m }, s.live⟩

/-- The heap after `k_heapLCABInit` and one call of `k_heapLCABAddBlock` for every block. -/
def makeHeap (m : Mem) (heap : KHeapLCAB) (blocks : List (ℕ × ℕ)) : HeapSys :=
  ⟨blocks.foldl (fun s b => kHeapLCABAddBlock s b.1 b.2) ⟨m, kHeapLCABInit heap⟩, []⟩

/-- A release does not write into a block through the header it takes for the preceding one. -/
def FreeOk (blocks : List (ℕ × ℕ)) (s : HeapSys) : HeapEvent → Prop
  | .free ptr hdrVar => ∀ b ∈ blocks, b.1 < ptr → ptr < b.1 + b.2 →
      FreeMisses (InBlocks blocks) (freeUnflag s.st (sub32 ptr 8)) b.1 (sub32 ptr 8) hdrVar
  | _ => True

/-! ### The invariant -/

/-- The live payloads are payloads of used chunks, at different addresses. -/
structure LiveInv (bs : List Block) (live : List (ℕ × ℕ)) : Prop where
  chunk : ∀ e ∈ live, ∃ b ∈ bs, ∃ x c, (x, c) ∈ b.headers ∧ e.1 = x + 8 ∧ c.used = true ∧
    e.2 ≤ c.size ∧ x + 8 + c.size ≤ b.addr + b.size
  nodup : (live.map Prod.fst).Nodup

/-- The heap is a list of blocks among `blocks`, and the live payloads are in it. -/
structure SysInv (blocks : List (ℕ × ℕ)) (bs : List Block) (s : HeapSys) : Prop where
  heap : HeapInv s.st bs
  among : ∀ b ∈ bs, (b.addr, b.size) ∈ blocks
  live : LiveInv bs s.live

theorem HeapInv.eq_of_has {s : HeapState} {bs : List Block} (h : HeapInv s bs) {b c : Block}
    (hb : b ∈ bs) (hc : c ∈ bs) {y : ℕ} (h1 : b.Has y) (h2 : c.Has y) : b = c := by
  by_contra hne
  exact (h.apart.forall hb hc hne).1 y h1 h2

/-- Two used chunks with the same payload address are the same chunk of the same block. -/
theorem HeapInv.header_unique {s : HeapState} {bs : List Block} (h : HeapInv s bs) {b d : Block}
    (hb : b ∈ bs) (hd : d ∈ bs) {x : ℕ} {c c' : Chunk} (hx : (x, c) ∈ b.headers)
    (hx' : (x, c') ∈ d.headers) : b = d ∧ c = c' := by
  have hin := ((h.blocks.mem b hb).hdrs _ hx).inside
  have hin' := ((h.blocks.mem d hd).hdrs _ hx').inside
  have hlo := (placed_bounds Chunk.len hx).1
  have hlo' := (placed_bounds Chunk.len hx').1
  simp only at hin hin'
  have hbd : b = d := h.eq_of_has hb hd (y := x) ⟨by omega, by omega⟩ ⟨by omega, by omega⟩
  subst hbd
  exact ⟨rfl, placed_unique Chunk.len Chunk.len_pos hx hx'⟩

/-- Payloads of two live pointers do not overlap, and each lies in its block. -/
theorem SysInv.separate {blocks : List (ℕ × ℕ)} {bs : List Block} {s : HeapSys}
    (h : SysInv blocks bs s) {e f : ℕ × ℕ} (he : e ∈ s.live) (hf : f ∈ s.live)
    (hne : e.1 ≠ f.1) : e.1 + e.2 ≤ f.1 ∨ f.1 + f.2 ≤ e.1 := by
  obtain ⟨b, hb, x, c, hx, hex, -, hsz, hin⟩ := h.live.chunk e he
  obtain ⟨d, hd, y, c', hy, hfy, -, hsz', hin'⟩ := h.live.chunk f hf
  have hlo := (placed_bounds Chunk.len hx).1
  have hlo' := (placed_bounds Chunk.len hy).1
  by_cases hbd : b = d
  · subst hbd
    have := placed_separate Chunk.len hx hy (by omega)
    simp only [Chunk.len] at this
    omega
  · have hap := h.heap.apart.forall hb hd hbd
    have h1 := mt (hap.1 (x + 7))
    have h2 := mt (hap.1 (y + 7))
    have h3 := (h.heap.blocks.mem b hb).hdrs _ hx |>.inside
    have h4 := (h.heap.blocks.mem d hd).hdrs _ hy |>.inside
    simp only [not_not] at *
    by_cases hle : x ≤ y
    · by_contra hcon
      exact h2 ⟨by omega, by omega⟩ ⟨by omega, by omega⟩
    · by_contra hcon
      exact h1 ⟨by omega, by omega⟩ ⟨by omega, by omega⟩

/-- No byte of a descriptor or header lies in a live payload. -/
theorem SysInv.meta_not_live {blocks : List (ℕ × ℕ)} {bs : List Block} {s : HeapSys}
    (h : SysInv blocks bs s) {b : Block} (hb : b ∈ bs) {y : ℕ} (hy : b.Meta y) :
    ¬ InLive s.live y := by
  rintro ⟨e, he, h1, h2⟩
  obtain ⟨d, hd, x, c, hx, hex, -, hsz, hin⟩ := h.live.chunk e he
  have hlo := (placed_bounds Chunk.len hx).1
  have hbd : b = d := by
    refine h.heap.eq_of_has hb hd ((h.heap.blocks.mem b hb).meta_has hy) ⟨?_, ?_⟩
    all_goals omega
  subst hbd
  rcases hy with hy | ⟨p, hp, hp1, hp2⟩
  · omega
  · by_cases hpx : p.1 = x
    · omega
    · have := placed_separate Chunk.len hp hx hpx
      simp only [Chunk.len] at this
      omega

/-! ### Steps -/

theorem LiveInv.of_headers {bs bs' : List Block} {live : List (ℕ × ℕ)} (h : LiveInv bs live)
    (hk : ∀ b ∈ bs, ∀ x c, (x, c) ∈ b.headers → c.used = true → (∃ e ∈ live, e.1 = x + 8) →
      ∃ b' ∈ bs', b'.addr = b.addr ∧ b'.size = b.size ∧
        ∃ c', (x, c') ∈ b'.headers ∧ c'.used = true ∧ c'.size = c.size) : LiveInv bs' live := by
  refine ⟨fun e he => ?_, h.nodup⟩
  obtain ⟨b, hb, x, c, hx, hex, hu, hsz, hin⟩ := h.chunk e he
  obtain ⟨b', hb', ha, hs, c', hx', hu', hsz'⟩ := hk b hb x c hx hu ⟨e, he, hex⟩
  exact ⟨b', hb', x, c', hx', hex, hu', by omega, by omega⟩

/-- A block of the list is replaced, the others stay. -/
theorem mem_update {b d : Block} (b' : Block) {bs₁ bs₂ : List Block} (hd : d ∈ bs₁ ++ b :: bs₂) :
    d = b ∨ d ∈ bs₁ ++ b' :: bs₂ := by
  simp only [List.mem_append, List.mem_cons] at hd ⊢
  tauto

/-- After `Chunk.take` the chunk's address carries a used chunk of at least `size` bytes. -/
theorem Chunk.take_head (c : Chunk) {size : ℕ} (hs : size ≤ c.size) (x : ℕ) (post : List Chunk) :
    ∃ c', (x, c') ∈ placed Chunk.len x (c.take size ++ post) ∧ c'.used = true ∧ size ≤ c'.size ∧
      c'.size ≤ c.size := by
  unfold Chunk.take
  split
  · exact ⟨⟨c.prev, size, true⟩, by simp, rfl, le_rfl, hs⟩
  · exact ⟨{ c with used := true }, by simp, rfl, hs, le_rfl⟩

theorem alloc_sysInv {blocks : List (ℕ × ℕ)} {bs : List Block} {s : HeapSys} {size fuel p : ℕ}
    {st : HeapState} (h : SysInv blocks bs s)
    (hs : kHeapLCABAlloc fuel s.st size = some (p, st)) :
    (p = 0 ∧ st = s.st) ∨
      ∃ bs₁ b bs₂ pre c post u, bs = bs₁ ++ b :: bs₂ ∧ b.chunks = pre ++ c :: post ∧
        allocFind s.st.mem size fuel fuel s.st.heap.fblock =
          some (some (b.addr, stop Chunk.len (b.addr + 20) pre)) ∧ c.used = false ∧
        size ≤ c.size ∧ p = stop Chunk.len (b.addr + 20) pre + 8 ∧
        SysInv blocks
          (bs₁ ++ { b with used := u, chunks := pre ++ (c.take size ++ post) } :: bs₂)
          ⟨st, (p, size) :: s.live⟩ := by
  rcases alloc_heapInv h.heap hs with ⟨_, hp, hst⟩ |
    ⟨bs₁, b, bs₂, pre, c, post, rfl, hch, _, hfind, hfree, hsize, hp, hinv⟩
  · exact .inl ⟨hp, hst⟩
  refine .inr ⟨bs₁, b, bs₂, pre, c, post, _, rfl, hch, hfind, hfree, hsize, hp, hinv, ?_, ?_⟩
  · intro d hd
    rcases mem_update b hd with rfl | hd
    · exact h.among b (by simp)
    · exact h.among d hd
  have hbmem : b ∈ bs₁ ++ b :: bs₂ := by simp
  set x := stop Chunk.len (b.addr + 20) pre with hx
  have hxc := Block.mem_headers hch hx
  -- the chunks that were live before keep their place
  have hold : LiveInv (bs₁ ++ { b with used := hbUsed st.mem b.addr
                                       chunks := pre ++ (c.take size ++ post) } :: bs₂) s.live := by
    refine h.live.of_headers fun d hd y c' hy hu _ => ?_
    rcases mem_update _ hd with rfl | hd
    · refine ⟨_, List.mem_append_right _ List.mem_cons_self, rfl, rfl, c', ?_, hu, rfl⟩
      have hy' : (y, c') ∈ placed Chunk.len (d.addr + 20) (pre ++ ([c] ++ post)) := by
        rw [Block.headers, hch] at hy
        exact hy
      refine mem_placed_replace Chunk.len hy' ?_ (Chunk.stop_take c size _)
      simp only [placed_cons, placed_nil, List.mem_singleton, Prod.mk.injEq, not_and]
      rintro _ rfl
      simp [hfree] at hu
    · exact ⟨d, hd, rfl, rfl, c', hy, hu, rfl⟩
  refine ⟨fun e he => ?_, ?_⟩
  · rcases List.mem_cons.mp he with rfl | he
    · obtain ⟨c', hc', hu, h1, h2⟩ := c.take_head hsize x post
      have hpay := ((h.heap.blocks.mem b hbmem).hdrs _ hxc).payload hfree
      refine ⟨_, List.mem_append_right _ List.mem_cons_self, x, c', ?_, hp, hu, h1, ?_⟩
      · rw [Block.headers, placed_append, List.mem_append]
        exact .inr hc'
      · simp only at hpay ⊢
        omega
    · exact hold.chunk e he
  · rw [List.map_cons, List.nodup_cons]
    refine ⟨fun hmem => ?_, h.live.nodup⟩
    obtain ⟨e, he, hep⟩ := List.mem_map.mp hmem
    obtain ⟨d, hd, y, c', hy, hey, hu, _⟩ := h.live.chunk e he
    have hyx : y = x := by simp only at hep; omega
    subst hyx
    obtain ⟨_, rfl⟩ := h.heap.header_unique hbmem hd hxc hy
    simp [hfree] at hu

/-- A used chunk behind a released one keeps its place, its flag and its size. -/
theorem Chunk.coalesce_keeps {c : Chunk} {x y : ℕ} {c' : Chunk} :
    ∀ {post : List Chunk}, (y, c') ∈ placed Chunk.len x (c :: post) → c'.used = true → y ≠ x →
      ∃ c'', (y, c'') ∈ placed Chunk.len x (c.clear.coalesce post) ∧ c''.used = true ∧
        c''.size = c'.size
  | [], h, _, hne => by simp_all
  | d :: post, h, hu, hne => by
      have hlen : c.clear.len = c.len := rfl
      have h' : (y, c') ∈ placed Chunk.len (x + c.len) (d :: post) := by
        rw [placed_cons, List.mem_cons] at h
        rcases h with h | h
        · cases h
          exact absurd rfl hne
        · exact h
      simp only [Chunk.coalesce]
      by_cases hd : d.used = true
      · refine ⟨c', ?_, hu, rfl⟩
        rw [if_pos hd, placed_cons, hlen]
        exact List.mem_cons_of_mem _ h'
      · rw [if_neg hd]
        rw [placed_cons, List.mem_cons] at h'
        rcases h' with h' | h'
        · cases h'
          exact absurd hu hd
        · have hstop : x + Chunk.len ⟨c.clear.prev, c.clear.size + 8 + d.size, false⟩ =
              x + c.len + d.len := by
            simp only [Chunk.len, Chunk.clear]
            omega
          rw [placed_cons, hstop]
          cases post with
          | nil => simp at h'
          | cons e post =>
              rw [placed_cons, List.mem_cons] at h'
              rcases h' with h' | h'
              · cases h'
                exact ⟨_, List.mem_cons_of_mem _ List.mem_cons_self, hu, rfl⟩
              · exact ⟨c', List.mem_cons_of_mem _ (List.mem_cons_of_mem _ h'), hu, rfl⟩

/-- The chunk of a live pointer. -/
theorem SysInv.live_chunk {blocks : List (ℕ × ℕ)} {bs : List Block} {s : HeapSys} {ptr n : ℕ}
    (h : SysInv blocks bs s) (hlive : (ptr, n) ∈ s.live) :
    ∃ bs₁ b bs₂ pre c post, bs = bs₁ ++ b :: bs₂ ∧ b.chunks = pre ++ c :: post ∧
      ptr = stop Chunk.len (b.addr + 20) pre + 8 ∧ c.used = true ∧ n ≤ c.size ∧
      stop Chunk.len (b.addr + 20) pre + 8 + c.size ≤ b.addr + b.size := by
  obtain ⟨b, hb, x, c, hx, hpx, hu, hn, hin⟩ := h.live.chunk _ hlive
  obtain ⟨bs₁, bs₂, rfl⟩ := List.append_of_mem hb
  obtain ⟨pre, post, hch, rfl⟩ := exists_split_of_mem_placed Chunk.len hx
  exact ⟨bs₁, b, bs₂, pre, c, post, rfl, hch, hpx, hu, hn, hin⟩

/-- The merge with the preceding chunk misses the blocks when the pointer of a chunk is released. -/
theorem FreeOk.misses {blocks : List (ℕ × ℕ)} {bs : List Block} {s : HeapSys} {b : Block}
    {x hdrVar : ℕ} (h : SysInv blocks bs s) (hok : FreeOk blocks s (.free (x + 8) hdrVar))
    (hb : b ∈ bs) (hlo : b.addr + 20 ≤ x) (hlt : x + 8 < b.addr + b.size) :
    FreeMisses (InBlocks blocks) (freeUnflag s.st x) b.addr x hdrVar := by
  have hfit := (h.heap.blocks.mem b hb).fits
  have hsub : sub32 (x + 8) 8 = x := by rw [sub32_of_le (by omega) (by omega)]; omega
  have := hok _ (h.among b hb) (by simp only; omega) hlt
  rwa [hsub] at this

/-- The release of a live pointer whose merge with the preceding chunk misses the blocks. -/
theorem free_sysInv_of {blocks : List (ℕ × ℕ)} {bs : List Block} {s : HeapSys}
    {ptr n hdrVar fuel : ℕ} {st : HeapState} (h : SysInv blocks bs s) (hlive : (ptr, n) ∈ s.live)
    (hmiss : ∀ b ∈ bs, ∀ x, ptr = x + 8 → b.addr + 20 ≤ x → ptr < b.addr + b.size →
      FreeMisses (InBlocks blocks) (freeUnflag s.st x) b.addr x hdrVar)
    (hs : kHeapLCABFree fuel s.st hdrVar ptr = some st) :
    ∃ bs₁ b bs₂ pre c post u, bs = bs₁ ++ b :: bs₂ ∧ b.chunks = pre ++ c :: post ∧
      ptr = stop Chunk.len (b.addr + 20) pre + 8 ∧ c.used = true ∧ ptr < b.addr + b.size ∧
      st = freeIn (freeUnflag s.st (stop Chunk.len (b.addr + 20) pre)) b.addr
        (stop Chunk.len (b.addr + 20) pre) hdrVar ∧
      SysInv blocks
        (bs₁ ++ { b with used := u, chunks := pre ++ c.clear.coalesce post } :: bs₂)
        ⟨st, s.live.filter (fun e => e.1 ≠ ptr)⟩ := by
  obtain ⟨bs₁, b, bs₂, pre, c, post, rfl, hch, hpx, hu, hn, hin⟩ := h.live_chunk hlive
  have hb : b ∈ bs₁ ++ b :: bs₂ := by simp
  obtain ⟨x, hxe⟩ : ∃ x, x = stop Chunk.len (b.addr + 20) pre := ⟨_, rfl⟩
  rw [← hxe] at hpx hin
  have hx := Block.mem_headers hch hxe
  obtain ⟨hc, hxlo⟩ := hdrAt_split (h.heap.blocks.mem b hb) hch hxe
  have hK : ∀ d ∈ bs₁ ++ b :: bs₂, ∀ y, d.Has y → InBlocks blocks y :=
    fun d hd y hy => ⟨_, h.among d hd, hy⟩
  have hinv := free_heapInv h.heap hch hxe hpx hin hK (hmiss b hb x hpx hxlo) hs
  obtain ⟨hlt, hst, -⟩ := free_eq_freeIn h.heap hch hxe hpx hin hs
  refine ⟨bs₁, b, bs₂, pre, c, post, _, rfl, hch, by omega, hu, hlt, hxe ▸ hst, hinv, ?_, ?_⟩
  · intro d hd
    rcases mem_update b hd with rfl | hd
    · exact h.among b (by simp)
    · exact h.among d hd
  have hrest : LiveInv (bs₁ ++ b :: bs₂) (s.live.filter (fun e => e.1 ≠ ptr)) :=
    ⟨fun e he => h.live.chunk e (List.mem_filter.mp he).1,
      h.live.nodup.sublist (List.filter_sublist.map _)⟩
  refine hrest.of_headers fun d hd y c' hy hu' hlv => ?_
  have hyx : y ≠ x := by
    obtain ⟨e, he, hey⟩ := hlv
    have := (List.mem_filter.mp he).2
    simp only [decide_eq_true_eq] at this
    omega
  rcases mem_update _ hd with rfl | hd
  · have hy' : (y, c') ∈ placed Chunk.len (d.addr + 20) pre ∨
        (y, c') ∈ placed Chunk.len x (c :: post) := by
      rw [Block.headers, hch, placed_append, List.mem_append, ← hxe] at hy
      exact hy
    refine ⟨_, List.mem_append_right _ List.mem_cons_self, rfl, rfl, ?_⟩
    simp only [Block.headers, placed_append, List.mem_append, ← hxe]
    rcases hy' with hy' | hy'
    · exact ⟨c', .inl hy', hu', rfl⟩
    · obtain ⟨c'', h1, h2, h3⟩ := Chunk.coalesce_keeps hy' hu' hyx
      exact ⟨c'', .inr h1, h2, h3⟩
  · exact ⟨d, hd, rfl, rfl, c', hy, hu', rfl⟩

theorem free_sysInv {blocks : List (ℕ × ℕ)} {bs : List Block} {s : HeapSys}
    {ptr n hdrVar fuel : ℕ} {st : HeapState} (h : SysInv blocks bs s) (hlive : (ptr, n) ∈ s.live)
    (hok : FreeOk blocks s (.free ptr hdrVar)) (hs : kHeapLCABFree fuel s.st hdrVar ptr = some st) :
    ∃ bs₁ b bs₂ pre c post u, bs = bs₁ ++ b :: bs₂ ∧ b.chunks = pre ++ c :: post ∧
      ptr = stop Chunk.len (b.addr + 20) pre + 8 ∧ c.used = true ∧ ptr < b.addr + b.size ∧
      st = freeIn (freeUnflag s.st (stop Chunk.len (b.addr + 20) pre)) b.addr
        (stop Chunk.len (b.addr + 20) pre) hdrVar ∧
      SysInv blocks
        (bs₁ ++ { b with used := u, chunks := pre ++ c.clear.coalesce post } :: bs₂)
        ⟨st, s.live.filter (fun e => e.1 ≠ ptr)⟩ :=
  free_sysInv_of h hlive (fun _ hb _ hpx hlo hlt => FreeOk.misses h (hpx ▸ hok) hb hlo (hpx ▸ hlt))
    hs

/-! ### What the calls leave alone -/

section keeps

variable {blocks : List (ℕ × ℕ)} {bs : List Block} {s : HeapSys} {st : HeapState} {fuel p y : ℕ}

/-- A byte of a live payload lies in one of the blocks. -/
theorem SysInv.live_has (h : SysInv blocks bs s) (hy : InLive s.live y) : ∃ b ∈ bs, b.Has y := by
  obtain ⟨e, he, h1, h2⟩ := hy
  obtain ⟨b, hb, x, c, hx, hex, -, hsz, hin⟩ := h.live.chunk e he
  have hlo := (placed_bounds Chunk.len hx).1
  exact ⟨b, hb, by omega, by omega⟩

/-- A request changes neither a live payload nor anything outside the blocks. -/
theorem alloc_keeps {size : ℕ} (h : SysInv blocks bs s)
    (hs : kHeapLCABAlloc fuel s.st size = some (p, st))
    (hy : InLive s.live y ∨ ¬ InBlocks blocks y) : st.mem y = s.st.mem y := by
  rcases alloc_sysInv h hs with ⟨-, rfl⟩ |
    ⟨bs₁, b, bs₂, pre, c, post, -, rfl, hch, hfind, hfree, hsize, -, -⟩
  · rfl
  have hb : b ∈ bs₁ ++ b :: bs₂ := by simp
  have hat := h.heap.blocks.mem b hb
  obtain ⟨x, hx⟩ : ∃ x, x = stop Chunk.len (b.addr + 20) pre := ⟨_, rfl⟩
  rw [← hx] at hfind
  obtain ⟨hc, hlo⟩ := hdrAt_split hat hch hx
  have hpay := hc.payload hfree
  have hge := hat.size_ge
  -- the call has taken the chunk at `x`
  unfold kHeapLCABAlloc at hs
  rw [hfind] at hs
  obtain ⟨-, rfl⟩ : w32 (x + 8) = p ∧ allocTake s.st b.addr x size = st := by simpa using hs
  refine allocTake_only hc hat.fits hlo hfree hsize y fun hin => ?_
  have hhas : b.Has y := by
    rw [Chunk.len] at hin
    exact ⟨by omega, by omega⟩
  rcases hy with hy | hy
  · rcases hin with hin | hin
    · exact h.meta_not_live hb (.inl ⟨by omega, by omega⟩) hy
    · -- a live payload belongs to a used chunk
      obtain ⟨e, he, h1, h2⟩ := hy
      obtain ⟨d, hd, z, c', hz, hez, hu, hsz, hend⟩ := h.live.chunk e he
      have hzlo := (placed_bounds Chunk.len hz).1
      obtain rfl : d = b := h.heap.eq_of_has hd hb (y := y) ⟨by omega, by omega⟩ hhas
      have hxc := Block.mem_headers hch hx
      by_cases hzx : z = x
      · subst hzx
        rw [(h.heap.header_unique hb hb hz hxc).2, hfree] at hu
        cases hu
      · have := placed_separate Chunk.len hz hxc hzx
        simp only [Chunk.len] at this hin
        omega
  · exact hy ⟨_, h.among b hb, hhas⟩

/-- A release leaves the other live payloads alone. -/
theorem free_keeps {ptr n hdrVar : ℕ} (h : SysInv blocks bs s) (hlive : (ptr, n) ∈ s.live)
    (hok : FreeOk blocks s (.free ptr hdrVar)) (hs : kHeapLCABFree fuel s.st hdrVar ptr = some st)
    (hy : InLive s.live y) : st.mem y = s.st.mem y := by
  obtain ⟨bs₁, b, bs₂, pre, c, post, rfl, hch, hpx, hu, hn, hin⟩ := h.live_chunk hlive
  have hb : b ∈ bs₁ ++ b :: bs₂ := by simp
  have hat := h.heap.blocks.mem b hb
  obtain ⟨-, hlo⟩ := hdrAt_split hat hch rfl
  have honly : Mem.Only _ s.st.mem st.mem := free_only h.heap hch rfl hpx hin
    (fun y hy => ⟨_, h.among b hb, hy⟩)
    (fun hlt => FreeOk.misses h (hpx ▸ hok) hb hlo (by omega)) hs
  obtain ⟨d, hd, hhas⟩ := h.live_has hy
  refine honly y ?_
  rintro (hmeta | hbehind | hout)
  · exact h.meta_not_live hb hmeta hy
  · -- the word behind the block lies in no block
    by_cases hdb : d = b
    · exact hat.behind hbehind (hdb ▸ hhas)
    · exact (h.heap.apart.forall hb hd (Ne.symm hdb)).2.1 y hbehind hhas
  · exact hout ⟨_, h.among d hd, hhas⟩

/-- The release of a live pointer ends, if its payload is not empty. -/
theorem SysInv.free_ends {ptr n : ℕ} (h : SysInv blocks bs s) (hlive : (ptr, n) ∈ s.live)
    (hn : 0 < n) (hfuel : bs.length < fuel) (hdrVar : ℕ) :
    ∃ st, kHeapLCABFree fuel s.st hdrVar ptr = some st := by
  obtain ⟨bs₁, b, bs₂, pre, c, post, rfl, hch, hpx, -, hsize, hin⟩ := h.live_chunk hlive
  exact Heap.free_ends h.heap hch rfl hpx hin (by omega) hfuel

end keeps

theorem write_sysInv {blocks : List (ℕ × ℕ)} {bs : List Block} {s : HeapSys} {m : Mem}
    (h : SysInv blocks bs s)
    (hm : ∀ y, InBlocks blocks y → ¬ InLive s.live y → m y = s.st.mem y) :
    SysInv blocks bs ⟨{ s.st with mem := m }, s.live⟩ := by
  refine ⟨⟨h.heap.blocks.congr fun b hb y hy => ?_, h.heap.apart⟩, h.among, h.live⟩
  exact hm y ⟨_, h.among b hb, (h.heap.blocks.mem b hb).meta_has hy⟩ (h.meta_not_live hb hy)

/-! ### Making the heap -/

/-- The bytes behind the first chunk of a block, read as headers, tile the rest of the block;
only a chunk flagged as used may reach past its end. -/
def TailTiled (m : Mem) (addr size : ℕ) (cs : List Chunk) : Prop :=
  (∀ p ∈ placed Chunk.len (addr + size - 24) cs, HdrAt m (addr + size) p.1 p.2) ∧
    addr + size ≤ stop Chunk.len (addr + size - 24) cs ∧
    stop Chunk.len (addr + size - 24) cs < 4294967296

/-- The block that `k_heapLCABAddBlock` makes: one free chunk, then what the bytes behind it
say. -/
def freshBlock (m : Mem) (addr size : ℕ) (cs : List Chunk) : Block where
  addr := addr
  size := size
  used := 0
  chunks := ⟨prevsize m (addr + 20), size - 52, false⟩ :: cs

/-- `k_heapLCABAddBlock` writes the descriptor and the `flagsize` of the first header. -/
theorem addBlock_only (s : HeapState) (addr size : ℕ) (hfit : addr + 28 < 4294967296) :
    Mem.Only (fun y => addr ≤ y ∧ y < addr + 28 ∧ ¬ InWord (addr + 20) y) s.mem
      (kHeapLCABAddBlock s addr size).mem := by
  have hw : ∀ a, addr ≤ a → (a + 4 ≤ addr + 20 ∨ a = addr + 24) → ∀ y, InWord a y →
      addr ≤ y ∧ y < addr + 28 ∧ ¬ InWord (addr + 20) y := by
    intro a h1 h2 y hy
    have := hy.le_lt (by omega)
    refine ⟨by omega, by omega, fun hy' => ?_⟩
    have := hy'.le_lt (by omega)
    omega
  refine ((((((Mem.Only.refl _ _).write32 _ (hw addr ?_ ?_)).write32 _ (hw _ ?_ ?_)).write32 _
    (hw _ ?_ ?_)).write32 _ (hw _ ?_ ?_)).write32 _ (hw _ ?_ ?_)).write32 _ (hw _ ?_ ?_)
  all_goals omega

theorem addBlock_heapInv {s : HeapState} {bs : List Block} {addr size : ℕ} {cs : List Chunk}
    (h : HeapInv s bs) (hpos : 0 < addr) (hge : 52 ≤ size) (hlt : size < 2147483676)
    (hfit : addr + size < 4294967296) (ht : TailTiled s.mem addr size cs)
    (hap : ∀ b ∈ bs, Apart (freshBlock s.mem addr size cs) b) :
    HeapInv (kHeapLCABAddBlock s addr size) (freshBlock s.mem addr size cs :: bs) := by
  obtain ⟨ht1, ht2, ht3⟩ := ht
  have honly := addBlock_only s addr size (by omega)
  have hlen : Chunk.len ⟨prevsize s.mem (addr + 20), size - 52, false⟩ = size - 44 := by
    simp only [Chunk.len]
    omega
  have htail : addr + 20 + (size - 44) = addr + size - 24 := by omega
  have hkeep : ∀ b ∈ bs, ∀ y, b.Has y → (kHeapLCABAddBlock s addr size).mem y = s.mem y := by
    intro b hb y hy
    refine honly y fun hy' => (hap b hb).1 y ⟨hy'.1, ?_⟩ hy
    have : (freshBlock s.mem addr size cs).size = size := rfl
    have : (freshBlock s.mem addr size cs).addr = addr := rfl
    omega
  have hprev : prevsize (kHeapLCABAddBlock s addr size).mem (addr + 20) =
      prevsize s.mem (addr + 20) := honly.read32 fun y hy hy' => hy'.2.2 hy
  have hat : BlockAt (kHeapLCABAddBlock s addr size).mem (freshBlock s.mem addr size cs) := by
    refine ⟨hpos, hfit, by simp only [freshBlock]; omega, hlt, ?_, ?_, ?_, ?_, ?_⟩
    · simp (disch := omega) only [freshBlock, kHeapLCABAddBlock, hbSize,
        Mem.read32_write32_of_disjoint, Mem.read32_write32, w32_of_lt]
    · simp (disch := omega) only [freshBlock, kHeapLCABAddBlock, hbUsed,
        Mem.read32_write32_of_disjoint, Mem.read32_write32, w32_of_lt]
    · simp only [Block.headers, freshBlock, placed_cons, hlen, htail, List.forall_mem_cons]
      refine ⟨⟨by omega, hprev, ?_, by simp only; omega, fun _ => by simp only; omega⟩, ?_⟩
      · simp (disch := omega) only [kHeapLCABAddBlock, flagsize, hbSize, Chunk.flagsize,
          Mem.read32_write32_of_disjoint, Mem.read32_write32, w32_of_lt, sub32_of_le]
        simp
      · intro p hp
        refine (ht1 p hp).congr (by omega) fun y h1 h2 => honly y fun hy => ?_
        have := (placed_bounds Chunk.len hp).1
        omega
    · simpa only [freshBlock, stop_cons, hlen, htail] using ht2
    · simpa only [freshBlock, stop_cons, hlen, htail] using ht3
  refine ⟨⟨rfl, hat, ?_⟩, List.pairwise_cons.mpr ⟨hap, h.apart⟩⟩
  have hnext : hbNext (kHeapLCABAddBlock s addr size).mem addr = w32 s.heap.fblock := by
    simp (disch := omega) only [kHeapLCABAddBlock, hbNext, Mem.read32_write32_of_disjoint,
      Mem.read32_write32]
  have hf : w32 s.heap.fblock = s.heap.fblock := by
    refine w32_of_lt ?_
    cases bs with
    | nil =>
        have hz : s.heap.fblock = 0 := h.blocks
        omega
    | cons b bs =>
        obtain ⟨hb, hb', _⟩ := h.blocks
        have := hb'.fits
        omega
  change BlocksAt _ (hbNext _ addr) bs
  rw [hnext, hf]
  refine h.blocks.congr fun b hb y hy => hkeep b hb y ((h.blocks.mem b hb).meta_has hy)

/-! ### Payloads -/

/-- The payload that has come last lies in the payload area of the block and meets no other live
payload. -/
theorem SysInv.newest_safe {addr size p n : ℕ} {bs : List Block} {st : HeapState}
    {live : List (ℕ × ℕ)} (h : SysInv [(addr, size)] bs ⟨st, (p, n) :: live⟩) :
    (addr + 28 ≤ p ∧ p + n ≤ addr + size) ∧ ∀ e ∈ live, p + n ≤ e.1 ∨ e.1 + e.2 ≤ p := by
  have hmem : (p, n) ∈ (p, n) :: live := List.mem_cons_self
  refine ⟨?_, fun e he => ?_⟩
  · obtain ⟨b, hb, x, c, hx, hpx, _, hn, hin⟩ := h.live.chunk _ hmem
    have hlo := (placed_bounds Chunk.len hx).1
    have hab : (b.addr, b.size) = (addr, size) := by simpa using h.among b hb
    simp only [Prod.mk.injEq] at hab
    simp only at hpx hn
    omega
  · refine h.separate hmem (List.mem_cons_of_mem _ he) fun heq => ?_
    have := h.live.nodup
    rw [List.map_cons, List.nodup_cons] at this
    exact this.1 (List.mem_map.mpr ⟨e, he, heq.symm⟩)

/-- The start state satisfies the invariant; a block at address `0` is a heap without blocks. -/
theorem makeHeap_sysInv {m : Mem} {heap : KHeapLCAB} {addr size : ℕ} {cs : List Chunk}
    (hge : 52 ≤ size) (hlt : size < 2147483676) (hfit : addr + size < 4294967296)
    (ht : TailTiled m addr size cs) :
    ∃ bs, SysInv [(addr, size)] bs (makeHeap m heap [(addr, size)]) := by
  have hlive : ∀ bs, LiveInv bs [] := fun bs => ⟨by simp, by simp⟩
  have h0 : HeapInv ⟨m, kHeapLCABInit heap⟩ [] := ⟨rfl, .nil⟩
  rcases Nat.eq_zero_or_pos addr with rfl | hpos
  · exact ⟨[], ⟨rfl, .nil⟩, by simp, hlive _⟩
  · have h1 := addBlock_heapInv h0 hpos hge hlt hfit ht (by simp)
    exact ⟨_, h1, by simp [freshBlock], hlive _⟩

/-- Bytes that are zero in the last 24 bytes of the block are three empty free chunks. -/
theorem tailTiled_of_zero {m : Mem} {addr size : ℕ} (hge : 24 ≤ size)
    (hfit : addr + size < 4294967296)
    (hz : ∀ y, addr + size - 24 ≤ y → y < addr + size → m y = 0) :
    TailTiled m addr size (List.replicate 3 ⟨0, 0, false⟩) := by
  have hread : ∀ a, addr + size - 24 ≤ a → a + 4 ≤ addr + size → m.read32 a = 0 := by
    intro a h1 h2
    refine Mem.read32_of_zero fun y hy => ?_
    have := hy.le_lt (by omega)
    exact hz y (by omega) (by omega)
  have hhdr : ∀ x, addr + size - 24 ≤ x → x + 8 ≤ addr + size →
      HdrAt m (addr + size) x ⟨0, 0, false⟩ := fun x h1 h2 =>
    ⟨h2, hread x h1 (by omega), hread (x + 4) (by omega) (by omega), by simp, fun _ => h2⟩
  refine ⟨?_, ?_, ?_⟩
  · simp only [List.replicate, placed_cons, placed_nil, List.forall_mem_cons, Chunk.len]
    exact ⟨hhdr _ (by omega) (by omega), hhdr _ (by omega) (by omega),
      hhdr _ (by omega) (by omega), by simp⟩
  all_goals
    simp only [List.replicate, stop_cons, stop_nil, Chunk.len]
    omega

/-! ### Runs of given calls -/

/-- The state after a request. -/
def afterAlloc (s : HeapState) (size : ℕ) : HeapState :=
  ((kHeapLCABAlloc 9 s size).getD (0, s)).2

/-- The state after a release. -/
def afterFree (s : HeapState) (ptr : ℕ) : HeapState := (kHeapLCABFree 9 s 0 ptr).getD s

theorem afterAlloc_step {blocks : List (ℕ × ℕ)} {s : HeapSys} {size p : ℕ}
    (h : (kHeapLCABAlloc 9 s.st size).map Prod.fst = some p) (hp : p ≠ 0) :
    HeapStep blocks s (.alloc size) ⟨afterAlloc s.st size, (p, size) :: s.live⟩ := by
  obtain ⟨⟨q, st⟩, hst, rfl⟩ := Option.map_eq_some_iff.mp h
  have hstep : HeapStep blocks s (.alloc size) _ := .alloc hst
  simpa [afterAlloc, hst, hp] using hstep

theorem afterFree_step {blocks : List (ℕ × ℕ)} {s : HeapSys} {ptr n : ℕ}
    (hl : (ptr, n) ∈ s.live) (h : (kHeapLCABFree 9 s.st 0 ptr).isSome) :
    HeapStep blocks s (.free ptr 0)
      ⟨afterFree s.st ptr, s.live.filter (fun e => e.1 ≠ ptr)⟩ := by
  obtain ⟨st, hst⟩ := Option.isSome_iff_exists.mp h
  have hstep : HeapStep blocks s (.free ptr 0) _ := .free hl hst
  simpa [afterFree, hst] using hstep

end Owmice.Heap
