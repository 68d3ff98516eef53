import Owmice.Heap
import Owmice.Tiling

/-! # The heap as a list of blocks of chunks

The abstract heap is a list of blocks, each a list of chunks laid end to end
(`Owmice.Tiling`).  `BlocksAt m hb bs` says that the blocks linked from `hb` in memory are
`bs`; `BlockAt m b` reads one of them: descriptor, and a header for every chunk.

The last chunk of a block may reach past its end only as a used chunk that nobody can free,
which is how bytes behind the chunk made by `k_heapLCABAddBlock` stop the walk.

* `BlockAt.congr`: a block depends only on its descriptor and headers (`Block.Meta`);
* `BlockAt.replace`: rewriting a stretch of chunks in place;
* `allocScan_eq`, `allocFind_eq`: the walks of the source compute `firstFit`. -/

namespace Owmice.Heap

open Tiling

/-- A chunk: what its header says. -/
structure Chunk where
  prev : ℕ
  size : ℕ
  used : Bool
deriving DecidableEq, Repr

namespace Chunk

/-- Header and payload. -/
def len (c : Chunk) : ℕ := 8 + c.size

/-- The word `flagsize` of the header. -/
def flagsize (c : Chunk) : ℕ := c.size + if c.used then 2147483648 else 0

theorem len_pos (c : Chunk) : 0 < c.len := by unfold len; omega

end Chunk

/-- The header at `x` describes the chunk `c` of a block that ends at `lim`. -/
structure HdrAt (m : Mem) (lim x : ℕ) (c : Chunk) : Prop where
  inside : x + 8 ≤ lim
  prev : prevsize m x = c.prev
  flag : flagsize m x = c.flagsize
  size_lt : c.size < 2147483648
  payload : c.used = false → x + 8 + c.size ≤ lim

theorem HdrAt.chunkSize {m : Mem} {lim x : ℕ} {c : Chunk} (h : HdrAt m lim x c) :
    chunkSize m x = c.size := by
  have := h.size_lt
  simp only [Heap.chunkSize, h.flag, Chunk.flagsize]
  split <;> omega

theorem HdrAt.free_iff {m : Mem} {lim x : ℕ} {c : Chunk} (h : HdrAt m lim x c) :
    flagsize m x < 2147483648 ↔ c.used = false := by
  have := h.size_lt
  rw [h.flag, Chunk.flagsize]
  cases c.used with
  | false => simp; omega
  | true => simp

theorem HdrAt.congr {m m' : Mem} {lim x : ℕ} {c : Chunk} (h : HdrAt m lim x c)
    (hlim : lim ≤ 4294967296) (hm : ∀ y, x ≤ y → y < x + 8 → m' y = m y) : HdrAt m' lim x c := by
  have hin := h.inside
  refine ⟨hin, ?_, ?_, h.size_lt, h.payload⟩
  · rw [← h.prev]
    refine Mem.read32_congr fun y hy => ?_
    have := hy.le_lt (by omega)
    exact hm y (by omega) (by omega)
  · rw [← h.flag]
    refine Mem.read32_congr fun y hy => ?_
    have := hy.le_lt (by omega)
    exact hm y (by omega) (by omega)

/-- A block: where it is, its counter, and its chunks in address order. -/
structure Block where
  addr : ℕ
  size : ℕ
  used : ℕ
  chunks : List Chunk

namespace Block

/-- Byte `y` lies in the block. -/
def Has (b : Block) (y : ℕ) : Prop := b.addr ≤ y ∧ y < b.addr + b.size

/-- The headers of the block with their addresses. -/
def headers (b : Block) : List (ℕ × Chunk) := placed Chunk.len (b.addr + 20) b.chunks

/-- Byte `y` belongs to the descriptor or to a header. -/
def Meta (b : Block) (y : ℕ) : Prop :=
  (b.addr ≤ y ∧ y < b.addr + 20) ∨ ∃ p ∈ b.headers, p.1 ≤ y ∧ y < p.1 + 8

theorem mem_headers {b : Block} {pre post : List Chunk} {c : Chunk} {x : ℕ}
    (hb : b.chunks = pre ++ c :: post) (hx : x = stop Chunk.len (b.addr + 20) pre) :
    (x, c) ∈ b.headers := by
  rw [headers, hb, hx]
  exact mem_placed_of_split _ _ _ _ _

end Block

/-- The block `b` is in memory. -/
structure BlockAt (m : Mem) (b : Block) : Prop where
  addr_pos : 0 < b.addr
  fits : b.addr + b.size < 4294967296
  size_ge : 20 ≤ b.size
  size_lt : b.size < 2147483676
  size_eq : hbSize m b.addr = b.size
  used_eq : hbUsed m b.addr = b.used
  hdrs : ∀ p ∈ b.headers, HdrAt m (b.addr + b.size) p.1 p.2
  reach : b.addr + b.size ≤ stop Chunk.len (b.addr + 20) b.chunks
  stop_lt : stop Chunk.len (b.addr + 20) b.chunks < 4294967296

/-- The blocks linked from `hb` on are `bs`. -/
def BlocksAt (m : Mem) : ℕ → List Block → Prop
  | hb, [] => hb = 0
  | hb, b :: bs => hb = b.addr ∧ BlockAt m b ∧ BlocksAt m (hbNext m b.addr) bs

/-- The blocks linked from `hb` on are `bs`, and each of them satisfies `P`. -/
def Linked (P : Mem → Block → Prop) (m : Mem) : ℕ → List Block → Prop
  | hb, [] => hb = 0
  | hb, b :: bs => hb = b.addr ∧ P m b ∧ Linked P m (hbNext m b.addr) bs

theorem blocksAt_iff {m : Mem} : ∀ {bs : List Block} {hb : ℕ},
    BlocksAt m hb bs ↔ Linked BlockAt m hb bs
  | [], _ => Iff.rfl
  | _ :: _, _ => and_congr_right fun _ => and_congr_right fun _ => blocksAt_iff

/-- Two blocks, given by address and size, share no byte, and neither contains a byte of the
word behind the other. -/
def ApartAt (b c : ℕ × ℕ) : Prop :=
  (∀ y, b.1 ≤ y ∧ y < b.1 + b.2 → ¬ (c.1 ≤ y ∧ y < c.1 + c.2)) ∧
    (∀ y, InWord (b.1 + b.2) y → ¬ (c.1 ≤ y ∧ y < c.1 + c.2)) ∧
      ∀ y, InWord (c.1 + c.2) y → ¬ (b.1 ≤ y ∧ y < b.1 + b.2)

theorem ApartAt.symm {b c : ℕ × ℕ} (h : ApartAt b c) : ApartAt c b :=
  ⟨fun y hc hb => h.1 y hb hc, h.2.2, h.2.1⟩

/-- `ApartAt` for blocks with their chunks. -/
def Apart (b c : Block) : Prop := ApartAt (b.addr, b.size) (c.addr, c.size)

instance : Std.Symm Apart := ⟨fun _ _ h => ApartAt.symm h⟩

/-- A stretch of chunks is replaced by another of the same extent; the headers before and
behind it keep their bytes. -/
theorem hdrs_replace {m m' : Mem} {a lim x e : ℕ} {pre mid mid' post : List Chunk}
    (h : ∀ p ∈ placed Chunk.len a (pre ++ (mid ++ post)), HdrAt m lim p.1 p.2)
    (hlim : lim ≤ 4294967296) (hx : x = stop Chunk.len a pre) (he : e = stop Chunk.len x mid)
    (he' : e = stop Chunk.len x mid')
    (hm : ∀ y, a ≤ y → y < lim → (y < x ∨ e ≤ y) → m' y = m y)
    (hmid : ∀ p ∈ placed Chunk.len x mid', HdrAt m' lim p.1 p.2) :
    ∀ p ∈ placed Chunk.len a (pre ++ (mid' ++ post)), HdrAt m' lim p.1 p.2 := by
  have hax : a ≤ x := hx ▸ le_stop Chunk.len _ pre
  have hxe : x ≤ e := he ▸ le_stop Chunk.len _ mid
  simp only [placed_append, ← hx, ← he] at h
  -- a header before `x` or from `e` on keeps its bytes
  have hkeep : ∀ p : ℕ × Chunk, a ≤ p.1 → (p.1 + 8 ≤ x ∨ e ≤ p.1) →
      HdrAt m lim p.1 p.2 → HdrAt m' lim p.1 p.2 := by
    intro p hlo hp hh
    have hin := hh.inside
    exact hh.congr hlim fun y h1 h2 => hm y (by omega) (by omega) (by omega)
  intro p hp
  simp only [placed_append, ← hx, ← he', List.mem_append] at hp
  rcases hp with hp | hp | hp
  · have hpb := placed_bounds Chunk.len hp
    rw [← hx, Chunk.len] at hpb
    exact hkeep p hpb.1 (.inl (by omega)) (h p (by simp [hp]))
  · exact hmid p hp
  · have hpb := placed_bounds Chunk.len hp
    exact hkeep p (by omega) (.inr hpb.1) (h p (by simp [hp]))

namespace BlockAt

variable {m : Mem} {b : Block}

theorem meta_has (h : BlockAt m b) {y : ℕ} (hy : b.Meta y) : b.Has y := by
  have hsz := h.size_ge
  rcases hy with ⟨h1, h2⟩ | ⟨p, hp, h1, h2⟩
  · exact ⟨h1, by omega⟩
  · have hb := (placed_bounds Chunk.len hp).1
    have hi := (h.hdrs p hp).inside
    exact ⟨by omega, by omega⟩

/-- A block is its descriptor and its headers: no other byte matters. -/
theorem congr (h : BlockAt m b) {m' : Mem} (hm : ∀ y, b.Meta y → m' y = m y) :
    BlockAt m' b ∧ hbNext m' b.addr = hbNext m b.addr := by
  have hfit := h.fits
  have hsz := h.size_ge
  have hword : ∀ a, b.addr ≤ a → a + 4 ≤ b.addr + 20 → m'.read32 a = m.read32 a := by
    intro a h1 h2
    refine Mem.read32_congr fun y hy => hm y (.inl ?_)
    have := hy.le_lt (by omega)
    omega
  refine ⟨⟨h.addr_pos, hfit, hsz, h.size_lt, ?_, ?_, ?_, h.reach, h.stop_lt⟩, ?_⟩
  · rw [← h.size_eq]; exact hword _ le_rfl (by omega)
  · rw [← h.used_eq]; exact hword _ (by omega) (by omega)
  · intro p hp
    refine (h.hdrs p hp).congr (by omega) fun y h1 h2 => hm y (.inr ⟨p, hp, h1, h2⟩)
  · exact hword _ (by omega) (by omega)

/-- The bytes that may change when the chunks between `x` and `e` are rewritten: two words of
the descriptor (`used`, and the pair `lastdsize`, `lastdhdr`), the chunks themselves, and
whatever is outside the block. -/
def Rewrites (b : Block) (x e y : ℕ) : Prop :=
  (b.addr + 4 ≤ y ∧ y < b.addr + 8) ∨ (b.addr + 12 ≤ y ∧ y < b.addr + 20) ∨ (x ≤ y ∧ y < e) ∨
    ¬ b.Has y

theorem Rewrites.counters {x y : ℕ} (h : Rewrites b 0 0 y) : Rewrites b x x y := by
  rcases h with h | h | ⟨-, h⟩ | h
  · exact .inl h
  · exact .inr (.inl h)
  · omega
  · exact .inr (.inr (.inr h))

/-- Replace a stretch of chunks by another of the same extent. -/
theorem replace (h : BlockAt m b) {m' : Mem} {pre : List Chunk} (mid mid' : List Chunk)
    {post : List Chunk} {x e : ℕ} (hb : b.chunks = pre ++ (mid ++ post)) (hx : x = stop Chunk.len (b.addr + 20) pre)
    (he : e = stop Chunk.len x mid) (he' : e = stop Chunk.len x mid')
    (hm : Mem.Only (Rewrites b x e) m m')
    (hmid : ∀ p ∈ placed Chunk.len x mid', HdrAt m' (b.addr + b.size) p.1 p.2) :
    BlockAt m' { b with used := hbUsed m' b.addr, chunks := pre ++ (mid' ++ post) } ∧
      hbNext m' b.addr = hbNext m b.addr := by
  have hfit := h.fits
  have hsz := h.size_ge
  have hxlo : b.addr + 20 ≤ x := hx ▸ le_stop Chunk.len _ pre
  have hhdrs := h.hdrs
  simp only [Block.headers, hb] at hhdrs
  have hstop : stop Chunk.len (b.addr + 20) (pre ++ (mid' ++ post)) =
      stop Chunk.len (b.addr + 20) b.chunks := by
    simp only [hb, stop_append, ← hx, ← he, ← he']
  have hsize : hbSize m' b.addr = hbSize m b.addr := by
    refine hm.read32 fun y hy => ?_
    have := hy.le_lt (by omega)
    simp only [Rewrites, Block.Has]
    omega
  refine ⟨⟨h.addr_pos, hfit, hsz, h.size_lt, hsize.trans h.size_eq, rfl, ?_, hstop ▸ h.reach,
    hstop ▸ h.stop_lt⟩, ?_⟩
  · refine hdrs_replace hhdrs hfit.le hx he he' (fun y h1 h2 h3 => hm y ?_) hmid
    have h1' : b.addr + 20 ≤ y := h1
    have h2' : y < b.addr + b.size := h2
    simp only [Rewrites, Block.Has]
    omega
  · refine hm.read32 fun y hy => ?_
    have := hy.le_lt (by omega)
    simp only [Rewrites, Block.Has]
    omega

/-- Writes to the counters of the descriptor, or outside the block. -/
theorem descriptor (h : BlockAt m b) {m' : Mem} (hm : Mem.Only (Rewrites b 0 0) m m') :
    BlockAt m' { b with used := hbUsed m' b.addr } ∧ hbNext m' b.addr = hbNext m b.addr := by
  have hb : b.chunks = b.chunks ++ ([] ++ []) := by simp
  have := h.replace [] [] hb rfl rfl rfl (hm.mono fun _ => BlockAt.Rewrites.counters) (by simp)
  simpa using this

/-- The word behind the block is outside it. -/
theorem behind (h : BlockAt m b) {y : ℕ} (hy : InWord (b.addr + b.size) y) : ¬ b.Has y := by
  have := h.fits
  have := h.size_lt
  simp only [InWord, w32, Block.Has] at *
  omega

end BlockAt

/-! ### The walks -/

/-- The first free chunk of at least `size` bytes among chunks placed from `x` on. -/
def fitIn (size x : ℕ) (cs : List Chunk) : Option (ℕ × Chunk) :=
  (placed Chunk.len x cs).find? (fun p => !p.2.used && decide (size ≤ p.2.size))

/-- The chunk that first fit chooses for `size` bytes, with its block. -/
def firstFit (size : ℕ) (bs : List Block) : Option (Block × ℕ × Chunk) :=
  bs.findSome? fun b =>
    if w32 (size + 8) ≤ sub32 b.size b.used then
      (fitIn size (b.addr + 20) b.chunks).map (fun p => (b, p))
    else none

theorem fitIn_mem {size x : ℕ} {cs : List Chunk} {p : ℕ × Chunk} (h : fitIn size x cs = some p) :
    p ∈ placed Chunk.len x cs ∧ p.2.used = false ∧ size ≤ p.2.size := by
  have hp := List.find?_some h
  simp only [Bool.and_eq_true, Bool.not_eq_true', decide_eq_true_eq] at hp
  exact ⟨List.mem_of_find?_eq_some h, hp⟩

theorem firstFit_mem {size : ℕ} {bs : List Block} {b : Block} {p : ℕ × Chunk}
    (h : firstFit size bs = some (b, p)) :
    b ∈ bs ∧ p ∈ b.headers ∧ p.2.used = false ∧ size ≤ p.2.size := by
  obtain ⟨c, hc, hcb⟩ := List.exists_of_findSome?_eq_some h
  split at hcb
  · obtain ⟨q, hq, hqp⟩ := Option.map_eq_some_iff.mp hcb
    cases hqp
    exact ⟨hc, fitIn_mem hq⟩
  · cases hcb

/-- The address of the next header. -/
theorem w32_next {x : ℕ} {c : Chunk} {cs : List Chunk}
    (h : stop Chunk.len x (c :: cs) < 4294967296) : w32 (x + 8 + c.size) = x + c.len := by
  have := le_stop Chunk.len (x + c.len) cs
  rw [stop_cons] at h
  rw [Chunk.len] at *
  rw [w32_of_lt (by omega)]
  omega

/-- When the walk over one block ends, it has found what `fitIn` finds. -/
theorem allocScan_eq {m : Mem} {hb size lim : ℕ} (hlim : w32 (hb + hbSize m hb) = lim) :
    ∀ (cs : List Chunk) (x fuel : ℕ) {r : Option ℕ},
      (∀ p ∈ placed Chunk.len x cs, HdrAt m lim p.1 p.2) → lim ≤ stop Chunk.len x cs →
      stop Chunk.len x cs < 4294967296 → allocScan m hb size fuel x = some r →
      r = (fitIn size x cs).map Prod.fst
  | _, _, 0, _, _, _, _, h => by cases h
  | [], x, fuel + 1, r, _, hreach, _, h => by
      have hx : ¬ x < lim := by simpa using hreach
      simp only [allocScan, hlim, hx, if_false, Option.some.injEq] at h
      simp [← h, fitIn]
  | c :: cs, x, fuel + 1, r, hh, hreach, hlt, h => by
      have hc : HdrAt m lim x c := hh (x, c) (by simp)
      have hx : x < lim := by have := hc.inside; omega
      simp only [allocScan, hlim, hx, if_true, hc.free_iff, hc.chunkSize] at h
      by_cases hfit : c.used = false ∧ size ≤ c.size
      · simp only [hfit, and_self, if_true, Option.some.injEq] at h
        simp [← h, fitIn, hfit.1, hfit.2]
      · simp only [hfit, if_false, w32_next hlt] at h
        rw [allocScan_eq hlim cs (x + c.len) fuel (fun p hp => hh p (by simp [hp])) hreach hlt h]
        have hne : (!c.used && decide (size ≤ c.size)) = false := by
          rw [Bool.eq_false_iff]
          simpa using hfit
        simp [fitIn, hne]

/-- When the walk over the blocks ends, it has found what `firstFit` finds. -/
theorem allocFind_eq {m : Mem} {size fuel : ℕ} :
    ∀ (n hb : ℕ) (bs : List Block) {r : Option (ℕ × ℕ)}, BlocksAt m hb bs →
      allocFind m size fuel n hb = some r →
      r = (firstFit size bs).map (fun q => (q.1.addr, q.2.1))
  | 0, _, _, _, _, h => by cases h
  | n + 1, hb, [], r, hbs, h => by
      have hz : hb = 0 := hbs
      simp only [allocFind, hz, if_true, Option.some.injEq] at h
      simp [← h, firstFit]
  | n + 1, hb, b :: bs, r, hbs, h => by
      obtain ⟨rfl, hb, hrest⟩ := hbs
      have hne : b.addr ≠ 0 := hb.addr_pos.ne'
      have hfit := hb.fits
      have hge := hb.size_ge
      have hlim : w32 (b.addr + hbSize m b.addr) = b.addr + b.size := by
        rw [hb.size_eq, w32_of_lt hfit]
      have h20 : w32 (b.addr + 20) = b.addr + 20 := w32_of_lt (by omega)
      simp only [allocFind, hne, if_false, hb.size_eq, hb.used_eq, h20] at h
      by_cases hroom : w32 (size + 8) ≤ sub32 b.size b.used
      · simp only [hroom, if_true] at h
        cases hs : allocScan m b.addr size fuel (b.addr + 20) with
        | none => simp [hs] at h
        | some o =>
            have ho := allocScan_eq hlim b.chunks (b.addr + 20) fuel hb.hdrs hb.reach hb.stop_lt hs
            cases hf : fitIn size (b.addr + 20) b.chunks with
            | none =>
                rw [hf] at ho
                simp only [hs, ho, Option.map_none] at h
                rw [allocFind_eq n _ bs hrest h]
                simp [firstFit, hroom, hf]
            | some p =>
                rw [hf] at ho
                simp only [hs, ho, Option.map_some, Option.some.injEq] at h
                simp [firstFit, hroom, hf, ← h]
      · simp only [hroom, if_false] at h
        rw [allocFind_eq n _ bs hrest h]
        simp [firstFit, hroom]

/-- What a walk finds does not depend on its fuel. -/
theorem allocScan_unique {m : Mem} {hb size : ℕ} : ∀ {fuel fuel' hdr : ℕ} {r r' : Option ℕ},
    allocScan m hb size fuel hdr = some r → allocScan m hb size fuel' hdr = some r' → r = r'
  | 0, _, _, _, _, h, _ => by cases h
  | _ + 1, 0, _, _, _, _, h' => by cases h'
  | fuel + 1, fuel' + 1, hdr, r, r', h, h' => by
      simp only [allocScan] at h h'
      by_cases hlt : hdr < w32 (hb + hbSize m hb)
      · by_cases hfit : flagsize m hdr < 2147483648 ∧ size ≤ chunkSize m hdr
        · simp only [hlt, hfit, and_self, if_true, Option.some.injEq] at h h'
          rw [← h, ← h']
        · simp only [hlt, hfit, if_true, if_false] at h h'
          exact allocScan_unique h h'
      · simp only [hlt, if_false, Option.some.injEq] at h h'
        rw [← h, ← h']

theorem allocFind_unique {m : Mem} {size fuel fuel' : ℕ} : ∀ {k k' hb : ℕ} {r r' : Option (ℕ × ℕ)},
    allocFind m size fuel k hb = some r → allocFind m size fuel' k' hb = some r' → r = r'
  | 0, _, _, _, _, h, _ => by cases h
  | _ + 1, 0, _, _, _, _, h' => by cases h'
  | k + 1, k' + 1, hb, r, r', h, h' => by
      simp only [allocFind] at h h'
      by_cases h0 : hb = 0
      · simp only [h0, if_true, Option.some.injEq] at h h'
        rw [← h, ← h']
      by_cases hroom : w32 (size + 8) ≤ sub32 (hbSize m hb) (hbUsed m hb)
      · simp only [h0, hroom, if_true, if_false] at h h'
        cases hs : allocScan m hb size fuel (w32 (hb + 20)) with
        | none => simp [hs] at h
        | some o =>
            cases hs' : allocScan m hb size fuel' (w32 (hb + 20)) with
            | none => simp [hs'] at h'
            | some o' =>
                obtain rfl := allocScan_unique hs hs'
                cases o with
                | none =>
                    simp only [hs, hs'] at h h'
                    exact allocFind_unique h h'
                | some hdr =>
                    simp only [hs, hs', Option.some.injEq] at h h'
                    rw [← h, ← h']
      · simp only [h0, hroom, if_false] at h h'
        exact allocFind_unique h h'

end Owmice.Heap
