import Owmice.HeapFit

/-! # What the kernel gets from the heap

`k_heapLCABAddBlock` stores the length of the first chunk in the word whose top bit is the used
flag, and `amalloc` rounds the address of a payload down to a page.

* `alloc_fresh_iff`: the blocks that serve the requests they have room for;
* `amalloc_iff`: the aligned allocations that stay inside their chunk. -/

namespace Owmice.Heap

open Tiling

/-! ### A block that has just been added -/

section Fresh

variable {s : HeapState} {addr size : ℕ}

/-- The fields that `k_heapLCABAddBlock` sets and a request reads. -/
theorem addBlock_fields (hge : 52 ≤ size) (hfit : addr + size < 4294967296) :
    hbSize (kHeapLCABAddBlock s addr size).mem addr = size ∧
      hbUsed (kHeapLCABAddBlock s addr size).mem addr = 0 ∧
      flagsize (kHeapLCABAddBlock s addr size).mem (addr + 20) = size - 52 := by
  refine ⟨?_, ?_, ?_⟩
  · simp (disch := omega) only [kHeapLCABAddBlock, hbSize, Mem.read32_write32_of_disjoint,
      Mem.read32_write32, w32_of_lt]
  · simp (disch := omega) only [kHeapLCABAddBlock, hbUsed, Mem.read32_write32_of_disjoint,
      Mem.read32_write32, w32_of_lt]
  · simp (disch := omega) only [kHeapLCABAddBlock, flagsize, hbSize,
      Mem.read32_write32_of_disjoint, Mem.read32_write32, w32_of_lt, sub32_of_le]

/-- The scan of a block chooses a header whose flag is clear. -/
theorem allocScan_free {m : Mem} {hb n x : ℕ} : ∀ {fuel hdr : ℕ},
    allocScan m hb n fuel hdr = some (some x) → x < 4294967296 ∧ flagsize m x < 2147483648
  | 0, _, h => by cases h
  | fuel + 1, hdr, h => by
      unfold allocScan at h
      by_cases hin : hdr < w32 (hb + hbSize m hb)
      · rw [if_pos hin] at h
        by_cases hfits : flagsize m hdr < 2147483648 ∧ n ≤ chunkSize m hdr
        · rw [if_pos hfits] at h
          cases h
          exact ⟨hin.trans (w32_lt _), hfits.1⟩
        · rw [if_neg hfits] at h
          exact allocScan_free h
      · rw [if_neg hin] at h
        cases h

theorem allocFind_free {m : Mem} {n fuel hb x : ℕ} : ∀ {k b : ℕ},
    allocFind m n fuel k b = some (some (hb, x)) → x < 4294967296 ∧ flagsize m x < 2147483648
  | 0, _, h => by cases h
  | k + 1, b, h => by
      unfold allocFind at h
      by_cases hb : b = 0
      · rw [if_pos hb] at h
        cases h
      rw [if_neg hb] at h
      by_cases hroom : w32 (n + 8) ≤ sub32 (hbSize m b) (hbUsed m b)
      · rw [if_pos hroom] at h
        cases hscan : allocScan m b n fuel (w32 (b + 20)) with
        | none => simp [hscan] at h
        | some r =>
            cases r with
            | none =>
                simp only [hscan] at h
                exact allocFind_free h
            | some hdr =>
                simp only [hscan, Option.some.injEq, Prod.mk.injEq] at h
                obtain ⟨rfl, rfl⟩ := h
                exact allocScan_free hscan
      · rw [if_neg hroom] at h
        exact allocFind_free h

/-- A block whose first header reads as free serves the request at once. -/
theorem alloc_fresh {n fuel : ℕ} (haddr : addr ≠ 0) (hge : 60 ≤ size)
    (hfit : addr + size < 4294967296) (hflag : size - 52 < 2147483648) (hn : n ≤ size - 52) :
    kHeapLCABAlloc (fuel + 1) (kHeapLCABAddBlock s addr size) n = some (addr + 28,
      allocTake (kHeapLCABAddBlock s addr size) addr (addr + 20) n) := by
  obtain ⟨hsize, hused, hfirst⟩ := addBlock_fields (s := s) (by omega : 52 ≤ size) hfit
  have hblock : (kHeapLCABAddBlock s addr size).heap.fblock = addr := rfl
  have hchunk : chunkSize (kHeapLCABAddBlock s addr size).mem (addr + 20) = size - 52 := by
    rw [chunkSize, hfirst, Nat.mod_eq_of_lt hflag]
  have hscan : allocScan (kHeapLCABAddBlock s addr size).mem addr n (fuel + 1) (addr + 20) =
      some (some (addr + 20)) := by
    rw [allocScan, hsize, w32_of_lt hfit, if_pos (by omega), hfirst, hchunk, if_pos ⟨hflag, hn⟩]
  have hfind : allocFind (kHeapLCABAddBlock s addr size).mem n (fuel + 1) (fuel + 1) addr =
      some (some (addr, addr + 20)) := by
    have hroom : w32 (n + 8) ≤ sub32 size 0 := by
      rw [w32_of_lt (by omega), sub32_of_le (Nat.zero_le _) (by omega)]
      omega
    rw [allocFind, if_neg haddr, hsize, hused, if_pos hroom, w32_of_lt (by omega), hscan]
  rw [kHeapLCABAlloc, hblock, hfind]
  simp only
  rw [w32_of_lt (by omega)]

/-- A request that is served from the first chunk has found its flag clear. -/
theorem flag_of_alloc_fresh {n fuel : ℕ} {s' : HeapState} (hge : 52 ≤ size)
    (hfit : addr + size < 4294967296)
    (h : kHeapLCABAlloc fuel (kHeapLCABAddBlock s addr size) n = some (addr + 28, s')) :
    addr ≠ 0 ∧ size - 52 < 2147483648 := by
  obtain ⟨-, -, hfirst⟩ := addBlock_fields (s := s) hge hfit
  unfold kHeapLCABAlloc at h
  cases hfind : allocFind (kHeapLCABAddBlock s addr size).mem n fuel fuel
      (kHeapLCABAddBlock s addr size).heap.fblock with
  | none => simp [hfind] at h
  | some r =>
      cases r with
      | none =>
          simp only [hfind, Option.some.injEq, Prod.mk.injEq] at h
          omega
      | some p =>
          obtain ⟨hb, x⟩ := p
          simp only [hfind, Option.some.injEq, Prod.mk.injEq] at h
          obtain ⟨hx, hfree⟩ := allocFind_free hfind
          have hxa : x = addr + 20 := by
            have hret := h.1
            simp only [w32] at hret
            omega
          refine ⟨?_, ?_⟩
          · -- a list of blocks that starts at address 0 is empty
            rintro rfl
            cases fuel with
            | zero => cases hfind
            | succ fuel => cases hfind
          · rw [hxa, hfirst] at hfree
            exact hfree

/-- A block serves the requests it has room for exactly if its length leaves the used flag clear
(and if it is a block: a heap whose first block is at address 0 has none). -/
theorem alloc_fresh_iff (s : HeapState) {addr size n fuel : ℕ} (hge : 60 ≤ size)
    (hfit : addr + size < 4294967296) (hn : n ≤ size - 52) (hfuel : 0 < fuel) :
    (∃ s', kHeapLCABAlloc fuel (kHeapLCABAddBlock s addr size) n = some (addr + 28, s')) ↔
      addr ≠ 0 ∧ size - 52 < 2147483648 := by
  obtain ⟨fuel, rfl⟩ := Nat.exists_eq_succ_of_ne_zero hfuel.ne'
  constructor
  · rintro ⟨s', h⟩
    exact flag_of_alloc_fresh (by omega) hfit h
  · rintro ⟨haddr, hflag⟩
    exact ⟨_, alloc_fresh haddr hge hfit hflag hn⟩

/-- The theorem for a block of one page. -/
theorem alloc_fresh_iff_page : ∃ s', kHeapLCABAlloc 1
    (kHeapLCABAddBlock ⟨fun _ => 0, ⟨0, 0, 0, 0⟩⟩ 1048576 4096) 1024 = some (1048576 + 28, s') :=
  (alloc_fresh_iff _ (by decide) (by decide) (by decide) (by decide)).mpr
    ⟨by decide, by decide⟩

/-- A block of 3 GiB does not serve a request of 16 bytes: its first chunk reads as used. -/
theorem alloc_fresh_large : ¬ ∃ fuel s', kHeapLCABAlloc fuel
    (kHeapLCABAddBlock ⟨fun _ => 0, ⟨0, 0, 0, 0⟩⟩ 1048576 3221225472) 16 =
      some (1048576 + 28, s') := by
  rintro ⟨fuel, s', h⟩
  exact absurd (flag_of_alloc_fresh (by decide) (by decide) h).2 (by decide)

end Fresh

/-! ### Aligned allocations -/

/-- `amalloc`, when there is a heap; `p & 0xFFFFF000` is written `p / 4096 * 4096`. -/
def amalloc (fuel : ℕ) (s : HeapState) (sz : ℕ) : Option (ℕ × HeapState) :=
  match kHeapLCABAlloc fuel s (w32 (sz + 4096)) with
  | none => none
  | some (p, s) => some (p / 4096 * 4096, s)

/-- The `sz` bytes at `p` start on a page, lie in the payload of the used chunk with its header
at `x`, and meet neither a header nor another chunk of the blocks `bs`. -/
structure InPayload (m : Mem) (bs : List Block) (x p sz : ℕ) : Prop where
  aligned : p % 4096 = 0
  used : 2147483648 ≤ flagsize m x
  inside : ∀ y, p ≤ y → y < p + sz → x + 8 ≤ y ∧ y < x + 8 + chunkSize m x
  headers : ∀ b ∈ bs, ∀ q ∈ b.headers, ∀ y, p ≤ y → y < p + sz → ¬ (q.1 ≤ y ∧ y < q.1 + 8)
  others : ∀ b ∈ bs, ∀ q ∈ b.headers, q.1 ≠ x → ∀ y, p ≤ y → y < p + sz →
    ¬ (q.1 ≤ y ∧ y < q.1 + q.2.len)

/-- `amalloc` has returned 0 because the request failed, or an area inside the chunk that was
taken for it. -/
def Contained (fuel : ℕ) (s : HeapState) (sz p : ℕ) (s' : HeapState) : Prop :=
  (p = 0 ∧ kHeapLCABAlloc fuel s (w32 (sz + 4096)) = some (0, s')) ∨
    ∃ x bs', kHeapLCABAlloc fuel s (w32 (sz + 4096)) = some (x + 8, s') ∧ TiledHeap s' bs' ∧
      InPayload s'.mem bs' x p sz

section Aligned

variable {s : HeapState} {bs : List Block}

/-- Two chunks of a heap have no byte in common. -/
theorem TiledHeap.separate (h : TiledHeap s bs) {b d : Block} (hb : b ∈ bs) (hd : d ∈ bs)
    {p q : ℕ × Chunk} (hp : p ∈ b.headers) (hq : q ∈ d.headers) (hne : q.1 ≠ p.1) {y : ℕ}
    (h1 : p.1 ≤ y) (h2 : y < p.1 + p.2.len) : ¬ (q.1 ≤ y ∧ y < q.1 + q.2.len) := by
  rintro ⟨h3, h4⟩
  obtain ⟨bs₁, bs₂, rfl⟩ := List.append_of_mem hb
  have hdb : d ∈ bs₁ ++ bs₂ ∨ d = b := by
    simp only [List.mem_append, List.mem_cons] at hd ⊢
    tauto
  rcases hdb with hdb | rfl
  · -- the blocks have no byte in common
    have hlo := placed_bounds Chunk.len hp
    have hlo' := placed_bounds Chunk.len hq
    rw [(h.at_mem hb).stop_eq] at hlo
    rw [(h.at_mem hd).stop_eq] at hlo'
    exact h.others d hdb y ⟨by omega, by omega⟩ ⟨by omega, by omega⟩
  · have := placed_separate Chunk.len hp hq (Ne.symm hne)
    omega

/-- The payload that a request gets. -/
theorem Served.payload {n : ℕ} {s' : HeapState} {bs₁ bs₂ : List Block} {b : Block}
    {pre post : List Chunk} {c : Chunk} (h : Served n s bs₁ b bs₂ pre c post s')
    (hn : n ≤ c.size) :
    let x := stop Chunk.len (b.addr + 20) pre
    ∃ d ∈ bs₁ ++ { b with used := w32 (b.used + c.charge n)
                          chunks := pre ++ (c.take n ++ post) } :: bs₂,
      ∃ c', (x, c') ∈ d.headers ∧ 2147483648 ≤ flagsize s'.mem x ∧
        chunkSize s'.mem x = c'.size ∧ n ≤ c'.size ∧ c'.size < 2147483648 := by
  intro x
  obtain ⟨c', hc', hused, hsize, -⟩ := c.take_head hn x post
  have hd := List.mem_append_right bs₁ (List.mem_cons_self (a := { b with
    used := w32 (b.used + c.charge n)
    chunks := pre ++ (c.take n ++ post) }) (l := bs₂))
  have hx : (x, c') ∈ Block.headers { b with
      used := w32 (b.used + c.charge n)
      chunks := pre ++ (c.take n ++ post) } := by
    rw [Block.headers, placed_append]
    exact List.mem_append_right _ hc'
  have hat := (h.tiled.at_mem hd).hdrs _ hx
  have hflag : ¬ flagsize s'.mem x < 2147483648 := by
    rw [hat.free_iff, hused]
    simp
  exact ⟨_, hd, c', hx, by omega, hat.chunkSize, hsize, hat.size_lt⟩

/-- An area inside the chunk starts with its payload. -/
theorem Contained.page {sz fuel x : ℕ} {s' : HeapState}
    (halloc : kHeapLCABAlloc fuel s (w32 (sz + 4096)) = some (x + 8, s'))
    (h : Contained fuel s sz ((x + 8) / 4096 * 4096) s') :
    sz = 0 ∨ ((x + 8) % 4096 = 0 ∧ sz + 4096 < 4294967296) := by
  rcases h with ⟨-, hnone⟩ | ⟨x', bs', hsome, -, hin⟩
  · rw [halloc] at hnone
    simp at hnone
  · have hxx : x' = x := by
      rw [halloc] at hsome
      simp only [Option.some.injEq, Prod.mk.injEq] at hsome
      omega
    subst hxx
    rcases Nat.eq_zero_or_pos sz with hzero | hpos
    · exact .inl hzero
    · -- the first and the last of the bytes are in the payload
      have hfirst := hin.inside ((x' + 8) / 4096 * 4096) le_rfl (by omega)
      have hlast := hin.inside ((x' + 8) / 4096 * 4096 + (sz - 1)) (by omega) (by omega)
      have hlt : chunkSize s'.mem x' < 2147483648 := Nat.mod_lt _ (by decide)
      exact .inr ⟨by omega, by omega⟩

/-- An aligned allocation ends.  It stays inside its chunk exactly if no chunk fits, or nothing
is asked for, or the payload of the first chunk that fits starts on a page and the size with the
page that is added to it is below 2 ^ 32. -/
theorem amalloc_iff (h : TiledHeap s bs) {sz fuel : ℕ} (hsz : sz < 4294967296)
    (hfuel : loopBound bs ≤ fuel) :
    ∃ p s', amalloc fuel s sz = some (p, s') ∧
      (Contained fuel s sz p s' ↔ ∀ b x c, firstFit (w32 (sz + 4096)) bs = some (b, x, c) →
        sz = 0 ∨ ((x + 8) % 4096 = 0 ∧ sz + 4096 < 4294967296)) := by
  have halloc := h.alloc (w32 (sz + 4096)) hfuel
  rcases firstFit_spec (w32 (sz + 4096)) bs with
    ⟨h1, -⟩ | ⟨bs₁, b, bs₂, pre, c, post, rfl, hch, h1, h2⟩
  · rw [h1] at halloc
    refine ⟨0, s, by rw [amalloc, halloc], ?_⟩
    constructor
    · intro _ b x c hfit
      rw [h1] at hfit
      cases hfit
    · intro _
      exact .inl ⟨rfl, halloc⟩
  · have hserved := allocTake_served h hch h2.fits
    set x := stop Chunk.len (b.addr + 20) pre with hx
    obtain ⟨hc, hlo, hhi⟩ := (h.at_mem (by simp)).split hch hx
    have hfit := (h.at_mem (b := b) (by simp)).fits
    have hxw : w32 (x + 8) = x + 8 := by
      have := hc.inside
      exact w32_of_lt (by omega)
    rw [h1] at halloc
    simp only [hxw] at halloc
    refine ⟨(x + 8) / 4096 * 4096, _, by rw [amalloc, halloc], ?_⟩
    constructor
    · intro hcontained b' x' c' hb'
      rw [h1] at hb'
      obtain ⟨rfl, rfl, rfl⟩ : b = b' ∧ x = x' ∧ c = c' := by simpa using hb'
      exact hcontained.page halloc
    · intro hcond
      have hpay := hserved.payload h2.fits.2
      obtain ⟨d, hd, c', hc', hused, hsize, hroom, -⟩ := hpay
      rw [← hx] at hc' hused hsize
      refine .inr ⟨x, _, halloc, hserved.tiled, ?_⟩
      rcases hcond b x c h1 with hzero | ⟨hpage, hsum⟩
      · subst hzero
        exact ⟨by omega, hused, by omega, by omega, by omega⟩
      · have hstart : (x + 8) / 4096 * 4096 = x + 8 := by omega
        have hlen : sz ≤ c'.size := by
          rw [w32_of_lt hsum] at hroom
          omega
        rw [hstart]
        have hinside : ∀ y, x + 8 ≤ y → y < x + 8 + sz → x ≤ y ∧ y < x + c'.len := by
          intro y hy hy'
          rw [Chunk.len]
          omega
        have hothers : ∀ e ∈ bs₁ ++ { b with
            used := w32 (b.used + c.charge (w32 (sz + 4096)))
            chunks := pre ++ (c.take (w32 (sz + 4096)) ++ post) } :: bs₂,
            ∀ q ∈ e.headers, q.1 ≠ x → ∀ y, x + 8 ≤ y → y < x + 8 + sz →
              ¬ (q.1 ≤ y ∧ y < q.1 + q.2.len) := by
          intro e he q hq hne y hy hy'
          exact hserved.tiled.separate hd he hc' hq hne (hinside y hy hy').1 (hinside y hy hy').2
        refine ⟨hpage, hused, fun y hy hy' => ⟨hy, by omega⟩, fun e he q hq y hy hy' => ?_, hothers⟩
        by_cases hne : q.1 = x
        · omega
        · have := hothers e he q hq hne y hy hy'
          rw [Chunk.len] at this
          omega

/-- A heap of one block in zero-filled memory. -/
def zeroHeap (addr size : ℕ) : HeapState := (makeHeap (fun _ => 0) ⟨0, 0, 0, 0⟩ [(addr, size)]).st

theorem zeroHeap_tiled {addr size : ℕ} (hpos : 0 < addr) (hge : 52 ≤ size)
    (hlt : size < 2147483676) (hfit : addr + size < 4294967296) :
    TiledHeap (zeroHeap addr size)
      [freshBlock (fun _ => 0) addr size (List.replicate 3 ⟨0, 0, false⟩)] :=
  makeHeap_tiled hpos hge hlt hfit fun _ _ _ => rfl

/-- The theorem for a block whose first payload starts on a page. -/
theorem amalloc_iff_page :
    ∃ p s', amalloc 6 (zeroHeap 8164 20000) 100 = some (p, s') ∧
      Contained 6 (zeroHeap 8164 20000) 100 p s' := by
  have htiled : TiledHeap (zeroHeap 8164 20000) _ :=
    zeroHeap_tiled (by decide) (by decide) (by decide) (by decide)
  obtain ⟨p, s', h1, h2⟩ := amalloc_iff htiled (by decide : 100 < 4294967296) (le_refl 6)
  refine ⟨p, s', h1, h2.mpr fun b x c h => .inr ?_⟩
  have hfirst : (firstFit (w32 (100 + 4096)) [freshBlock (fun _ => 0) 8164 20000
      (List.replicate 3 ⟨0, 0, false⟩)]).map (fun q => q.2.1) = some 8184 := by decide +kernel
  rw [h] at hfirst
  simp only [Option.map_some, Option.some.injEq] at hfirst
  rw [hfirst]
  decide

/-- A task stack of 100 bytes that starts where the descriptor of the block does. -/
theorem amalloc_descriptor :
    TiledHeap (zeroHeap 8192 20000)
        [freshBlock (fun _ => 0) 8192 20000 (List.replicate 3 ⟨0, 0, false⟩)] ∧
      ∃ s', amalloc 6 (zeroHeap 8192 20000) 100 = some (8192, s') ∧
        ¬ Contained 6 (zeroHeap 8192 20000) 100 8192 s' := by
  obtain ⟨s', halloc⟩ : ∃ s', kHeapLCABAlloc 6 (zeroHeap 8192 20000) (w32 (100 + 4096)) =
      some (8192 + 28, s') :=
    ⟨_, alloc_fresh (by decide) (by decide) (by decide) (by decide) (by decide +kernel)⟩
  refine ⟨zeroHeap_tiled (by decide) (by decide) (by decide) (by decide), s', ?_, ?_⟩
  · rw [amalloc, halloc]
  · intro h
    rcases Contained.page (x := 8212) halloc h with h | h
    · exact absurd h (by decide)
    · exact absurd h.1 (by decide)

end Aligned

end Owmice.Heap
