import Owmice.HeapRun

/-! # Boundary tags

Every header keeps in `prevsize` the payload length of the chunk before it, and the first
header of a block keeps 0.  A request that splits a chunk writes the tag of the remainder, but
not the tag of the chunk behind it, whose predecessor is the remainder from now on.

The walks also read the 24 bytes that `k_heapLCABAddBlock` leaves behind its chunk.  In
zero-filled memory these are three empty free chunks with the tag 0, and they are no chunks as
long as they are zero (`Untouched`); a release that merges with one of them writes the tag of
the next, and a request may hand one out.

* `BlockAt.tagsCorrect`: the tags in memory are those of the list of chunks;
* `Block.Tagged.take`, `Block.Tagged.coalesce`: requests and releases that keep them. -/

namespace Owmice.Heap

open Tiling

/-! ### Tags in memory -/

/-- The blocks of the list that starts at `fblock`. -/
inductive OnList (s : HeapState) : ℕ → Prop
  | first : s.heap.fblock ≠ 0 → OnList s s.heap.fblock
  | next {hb : ℕ} : OnList s hb → hbNext s.mem hb ≠ 0 → OnList s (hbNext s.mem hb)

/-- The headers of a block: what the walks over the block read as headers. -/
inductive ChunkHdr (m : Mem) (hb : ℕ) : ℕ → Prop
  | first : ChunkHdr m hb (hb + 20)
  | next {hdr : ℕ} : ChunkHdr m hb hdr →
      hdr + 8 + chunkSize m hdr < hb + hbSize m hb → ChunkHdr m hb (hdr + 8 + chunkSize m hdr)

/-- The header at `hdr` is eight zero bytes among the last 24 of the block, where
`k_heapLCABAddBlock` lays out no chunk: it is as it was before any call handed it out or gave it
a tag. -/
def Untouched (m : Mem) (hb hdr : ℕ) : Prop :=
  hb + hbSize m hb ≤ hdr + 24 ∧ prevsize m hdr = 0 ∧ flagsize m hdr = 0

instance (m : Mem) (hb hdr : ℕ) : Decidable (Untouched m hb hdr) := by
  unfold Untouched
  infer_instance

/-- The first header of the block has the tag 0, and every other header the size of the chunk
before it, but for untouched ones. -/
def TagsCorrect (m : Mem) (hb : ℕ) : Prop :=
  prevsize m (hb + 20) = 0 ∧
    ∀ hdr, ChunkHdr m hb hdr → hdr + 8 + chunkSize m hdr < hb + hbSize m hb →
      Untouched m hb (hdr + 8 + chunkSize m hdr) ∨
        prevsize m (hdr + 8 + chunkSize m hdr) = chunkSize m hdr

/-- If the chunk at `hdr` is split for `size` bytes, no header follows it, or an untouched one. -/
def SplitsLast (m : Mem) (hb hdr size : ℕ) : Prop :=
  w32 (size + 8 + 16) < chunkSize m hdr →
    hb + hbSize m hb ≤ hdr + 8 + chunkSize m hdr ∨ Untouched m hb (hdr + 8 + chunkSize m hdr)

/-- If the header at `hdr` is untouched, the chunk before it is empty. -/
def BehindEmpty (m : Mem) (hb hdr : ℕ) : Prop :=
  Untouched m hb hdr → ∀ phdr, ChunkHdr m hb phdr → phdr + 8 + chunkSize m phdr = hdr →
    chunkSize m phdr = 0

/-- A request splits the chunk that it takes only at the end of the chunks, and makes a chunk of
untouched bytes only behind an empty one. -/
def TakesLast (s : HeapState) : HeapEvent → Prop
  | .alloc size => ∀ fuel hb hdr,
      allocFind s.mem size fuel fuel s.heap.fblock = some (some (hb, hdr)) →
        SplitsLast s.mem hb hdr size ∧ BehindEmpty s.mem hb hdr
  | _ => True

/-! ### Tags of a list of chunks -/

/-- The bytes of `Untouched`, as a chunk at `x` of a block whose last 24 bytes start at `lim`. -/
def Chunk.Untouched (c : Chunk) (lim x : ℕ) : Prop := lim ≤ x ∧ c = ⟨0, 0, false⟩

/-- The chunks that start at `x` have the sizes of their predecessors as tags, the first one the
tag `n`, but for untouched ones. -/
def TaggedFrom (lim : ℕ) : ℕ → ℕ → List Chunk → Prop
  | _, _, [] => True
  | x, n, c :: cs => (c.prev = n ∨ c.Untouched lim x) ∧ TaggedFrom lim (x + c.len) c.size cs

/-- The tags of a block are correct. -/
def Block.Tagged (b : Block) : Prop :=
  TaggedFrom (b.addr + b.size - 24) (b.addr + 20) 0 b.chunks

/-- The size of the last chunk of a list, `n` for the empty list. -/
def lastSize (n : ℕ) : List Chunk → ℕ
  | [] => n
  | c :: cs => lastSize c.size cs

theorem taggedFrom_append {lim : ℕ} (cs : List Chunk) {ds : List Chunk} {x n : ℕ} :
    TaggedFrom lim x n (cs ++ ds) ↔
      TaggedFrom lim x n cs ∧ TaggedFrom lim (stop Chunk.len x cs) (lastSize n cs) ds := by
  induction cs generalizing x n with
  | nil => simp [TaggedFrom, lastSize]
  | cons c cs ih =>
      simp only [List.cons_append, TaggedFrom, stop_cons, lastSize, ih, and_assoc]

theorem lastSize_concat (n : ℕ) (cs : List Chunk) (c : Chunk) :
    lastSize n (cs ++ [c]) = c.size := by
  induction cs generalizing n with
  | nil => rfl
  | cons d cs ih => exact ih d.size

theorem taggedFrom_relink {lim x n k : ℕ} :
    ∀ {cs : List Chunk}, TaggedFrom lim x k cs → TaggedFrom lim x n (relink n cs)
  | [], _ => trivial
  | _ :: _, h => ⟨.inl rfl, h.2⟩

/-- A chunk with a correct tag that is taken whole, or split in front of untouched bytes, leaves
the tags correct. -/
theorem taggedFrom_take {lim x n size : ℕ} {c : Chunk} {post : List Chunk} (hc : c.prev = n)
    (h : TaggedFrom lim (x + c.len) c.size post)
    (hlast : size + 24 < c.size → ∀ d ∈ post.head?, d.Untouched lim (x + c.len)) :
    TaggedFrom lim x n (c.take size ++ post) := by
  unfold Chunk.take
  split
  case isTrue hs =>
    have hrest : x + Chunk.len ⟨c.prev, size, true⟩ +
        Chunk.len ⟨size, c.size - (size + 8), false⟩ = x + c.len := by
      simp only [Chunk.len]
      omega
    simp only [List.cons_append, List.nil_append, TaggedFrom, hrest]
    refine ⟨.inl hc, .inl trivial, ?_⟩
    cases post with
    | nil => trivial
    | cons d post => exact ⟨.inr (hlast hs d (by simp)), h.2⟩
  case isFalse => exact ⟨.inl hc, h⟩

/-- So does the release of a chunk, with or without a merge. -/
theorem taggedFrom_coalesce {lim x n : ℕ} {c : Chunk} (hu : c.used = true) :
    ∀ {post : List Chunk}, TaggedFrom lim x n (c :: post) →
      TaggedFrom lim x n (c.clear.coalesce post)
  | post, ⟨hc, h⟩ => by
      have htag : c.clear.prev = n := by
        rcases hc with hc | ⟨-, rfl⟩
        · exact hc
        · cases hu
      cases post with
      | nil => exact ⟨.inl htag, trivial⟩
      | cons d post =>
          simp only [Chunk.coalesce]
          split
          · exact ⟨.inl htag, h⟩
          · refine ⟨.inl htag, taggedFrom_relink (k := d.size) ?_⟩
            rw [Chunk.add_len_merged]
            exact h.2

theorem Block.Tagged.append {b : Block} {pre cs : List Chunk} (hb : b.chunks = pre ++ cs) :
    b.Tagged ↔ TaggedFrom (b.addr + b.size - 24) (b.addr + 20) 0 pre ∧
      TaggedFrom (b.addr + b.size - 24) (stop Chunk.len (b.addr + 20) pre) (lastSize 0 pre) cs := by
  rw [Block.Tagged, hb, taggedFrom_append]

/-! ### The tags in memory are those of the chunks -/

/-- An untouched header is an untouched chunk. -/
theorem HdrAt.untouched_iff {m : Mem} {b : Block} {x : ℕ} {c : Chunk} (h : BlockAt m b)
    (hc : HdrAt m (b.addr + b.size) x c) :
    Untouched m b.addr x ↔ c.Untouched (b.addr + b.size - 24) x := by
  obtain ⟨prev, size, used⟩ := c
  rw [Untouched, Chunk.Untouched, h.size_eq, hc.prev, hc.flag, Chunk.flagsize, Chunk.mk.injEq]
  cases used with
  | false => simp
  | true => simp

/-- The walk over the headers of a block stays among the headers of its chunks. -/
theorem BlockAt.split_of_chunkHdr {m : Mem} {b : Block} (h : BlockAt m b) (hge : 52 ≤ b.size)
    {x : ℕ} (hx : ChunkHdr m b.addr x) :
    ∃ pre c post, b.chunks = pre ++ c :: post ∧ x = stop Chunk.len (b.addr + 20) pre := by
  induction hx with
  | first =>
      cases hch : b.chunks with
      | nil =>
          have := h.reach
          simp only [hch, stop_nil] at this
          omega
      | cons c cs => exact ⟨[], c, cs, rfl, by simp⟩
  | @next x _ hlt ih =>
      obtain ⟨pre, c, post, hch, hxe⟩ := ih
      rw [h.size_eq] at hlt
      have hc := (hdrAt_split h hch hxe).1
      rw [hc.chunkSize] at hlt ⊢
      have hstop : x + 8 + c.size = stop Chunk.len (b.addr + 20) (pre ++ [c]) := by
        simp only [stop_append, stop_cons, stop_nil, ← hxe, Chunk.len]
        omega
      cases post with
      | nil =>
          have := h.reach
          rw [hch] at this
          omega
      | cons d post => exact ⟨pre ++ [c], d, post, by simp [hch], hstop⟩

/-- It comes to each of them. -/
theorem BlockAt.chunkHdr {m : Mem} {b : Block} (h : BlockAt m b) {c : Chunk} :
    ∀ (pre : List Chunk) {post : List Chunk}, b.chunks = pre ++ c :: post →
      ChunkHdr m b.addr (stop Chunk.len (b.addr + 20) pre) := by
  intro pre
  induction pre using List.reverseRecOn generalizing c with
  | nil => exact fun _ => .first
  | append_singleton pre d ih =>
      intro post hch
      have hch' : b.chunks = pre ++ d :: c :: post := by simpa using hch
      have hd := (hdrAt_split h hch' rfl).1
      have hc := (hdrAt_split h hch rfl).1.inside
      have hstop : stop Chunk.len (b.addr + 20) (pre ++ [d]) =
          stop Chunk.len (b.addr + 20) pre + 8 + chunkSize m (stop Chunk.len (b.addr + 20) pre) := by
        rw [stop_append, stop_cons, stop_nil, hd.chunkSize, Chunk.len, Nat.add_assoc]
      rw [hstop] at hc ⊢
      exact .next (ih hch') (by rw [h.size_eq]; omega)

/-- In memory the tags of a tagged block are correct. -/
theorem BlockAt.tagsCorrect {m : Mem} {b : Block} (h : BlockAt m b) (hge : 52 ≤ b.size)
    (ht : b.Tagged) : TagsCorrect m b.addr := by
  constructor
  · obtain ⟨pre, c, post, hch, hx⟩ := h.split_of_chunkHdr hge .first
    have hpre : pre = [] := by
      cases pre with
      | nil => rfl
      | cons d pre =>
          have := le_stop Chunk.len (b.addr + 20 + d.len) pre
          have := d.len_pos
          rw [stop_cons] at hx
          omega
    subst hpre
    rw [(hdrAt_split h hch hx).1.prev]
    rw [Block.Tagged, hch] at ht
    rcases ht.1 with hc | ⟨hlim, -⟩
    · exact hc
    · omega
  · intro x hx hlt
    obtain ⟨pre, c, post, hch, hxe⟩ := h.split_of_chunkHdr hge hx
    have hc := (hdrAt_split h hch hxe).1
    rw [h.size_eq] at hlt
    rw [hc.chunkSize] at hlt ⊢
    have htail := ((Block.Tagged.append hch).mp ht).2
    have hxd : x + 8 + c.size = x + c.len := by
      simp only [Chunk.len]
      omega
    cases post with
    | nil =>
        have := h.reach
        rw [hch, stop_append, stop_cons, stop_nil, ← hxe] at this
        omega
    | cons d post =>
        have hd := hdrAt_next h hch hxe
        rw [hxd, hd.untouched_iff h, hd.prev]
        rw [← hxe] at htail
        exact htail.2.1.symm

/-! ### What the calls do to the tags -/

section calls

variable {m : Mem} {b : Block} {pre post : List Chunk} {c : Chunk}

/-- The chunk that a request takes has a correct tag. -/
theorem Block.Tagged.prev_taken (ht : b.Tagged) (h : BlockAt m b)
    (hch : b.chunks = pre ++ c :: post)
    (hempty : BehindEmpty m b.addr (stop Chunk.len (b.addr + 20) pre)) :
    c.prev = lastSize 0 pre := by
  have hc := (hdrAt_split h hch rfl).1
  rcases ((Block.Tagged.append hch).mp ht).2.1 with htag | hun
  · exact htag
  have hzero : c.prev = 0 := by rw [hun.2]
  rcases List.eq_nil_or_concat pre with rfl | ⟨pre, d, rfl⟩
  · exact hzero
  -- the chunk before it is `d`
  have hch' : b.chunks = pre ++ d :: c :: post := by simpa using hch
  have hd := (hdrAt_split h hch' rfl).1
  have hnext := hempty ((hc.untouched_iff h).mpr hun) _ (h.chunkHdr pre hch') (by
    rw [hd.chunkSize, List.concat_eq_append, stop_append, stop_cons, stop_nil, Chunk.len,
      Nat.add_assoc])
  rw [hd.chunkSize] at hnext
  rw [hzero, List.concat_eq_append, lastSize_concat, hnext]

/-- A request that takes the last chunk leaves the tags correct. -/
theorem Block.Tagged.take (ht : b.Tagged) (h : BlockAt m b)
    (hch : b.chunks = pre ++ c :: post) {size : ℕ}
    (hlast : SplitsLast m b.addr (stop Chunk.len (b.addr + 20) pre) size)
    (hempty : BehindEmpty m b.addr (stop Chunk.len (b.addr + 20) pre)) (u : ℕ) :
    Block.Tagged { b with used := u, chunks := pre ++ (c.take size ++ post) } := by
  obtain ⟨hpre, -, hpost⟩ := (Block.Tagged.append hch).mp ht
  refine (Block.Tagged.append rfl).mpr ⟨hpre, ?_⟩
  refine taggedFrom_take (ht.prev_taken h hch hempty) hpost fun hlt d hd => ?_
  cases post with
  | nil => simp at hd
  | cons e post =>
      obtain rfl : e = d := by simpa using hd
      have hc := (hdrAt_split h hch rfl).1
      have hsz := hc.size_lt
      have he := hdrAt_next h hch rfl
      have hin := he.inside
      have := hlast (by rw [hc.chunkSize, w32_of_lt (by omega)]; omega)
      rw [hc.chunkSize, h.size_eq, Nat.add_assoc _ 8, ← Chunk.len, he.untouched_iff h] at this
      exact this.resolve_left (by omega)

/-- So does a release. -/
theorem Block.Tagged.coalesce (ht : b.Tagged) (hch : b.chunks = pre ++ c :: post)
    (hu : c.used = true) (u : ℕ) :
    Block.Tagged { b with used := u, chunks := pre ++ c.clear.coalesce post } := by
  obtain ⟨hpre, hpost⟩ := (Block.Tagged.append hch).mp ht
  exact (Block.Tagged.append rfl).mpr ⟨hpre, taggedFrom_coalesce hu hpost⟩

end calls

/-- Every block on the list is one of `bs`. -/
theorem HeapInv.of_onList {s : HeapState} {bs : List Block} (h : HeapInv s bs) {hb : ℕ}
    (hl : OnList s hb) : ∃ b ∈ bs, b.addr = hb := by
  have hwalk : ∀ (bs : List Block) (a : ℕ), BlocksAt s.mem a bs → a ≠ 0 →
      ∃ b rest, bs = b :: rest ∧ b.addr = a ∧ BlocksAt s.mem (hbNext s.mem a) rest := by
    intro bs a hbs ha
    cases bs with
    | nil => exact absurd hbs ha
    | cons b rest =>
        obtain ⟨rfl, _, hrest⟩ := hbs
        exact ⟨b, rest, rfl, rfl, hrest⟩
  have hsuffix : ∃ b rest, (b :: rest) <:+ bs ∧ b.addr = hb ∧
      BlocksAt s.mem (hbNext s.mem hb) rest := by
    induction hl with
    | first h0 =>
        obtain ⟨b, rest, rfl, hb, hrest⟩ := hwalk bs _ h.blocks h0
        exact ⟨b, rest, List.suffix_rfl, hb, hrest⟩
    | next _ h0 ih =>
        obtain ⟨b, rest, hsub, rfl, hrest⟩ := ih
        obtain ⟨d, rest', rfl, hd, hrest'⟩ := hwalk rest _ hrest h0
        exact ⟨d, rest', (List.suffix_cons _ _).trans hsub, hd, hrest'⟩
  obtain ⟨b, rest, hsub, hb, _⟩ := hsuffix
  exact ⟨b, hsub.subset List.mem_cons_self, hb⟩

theorem forall_mem_update {P : Block → Prop} {b b' : Block} {bs₁ bs₂ : List Block}
    (h : ∀ d ∈ bs₁ ++ b :: bs₂, P d) (h' : P b') : ∀ d ∈ bs₁ ++ b' :: bs₂, P d := by
  intro d hd
  rcases mem_update b hd with rfl | hd
  · exact h'
  · exact h d hd

/-! ### Blocks in zero-filled memory -/

/-- A block that `k_heapLCABAddBlock` can be given: it has room for the structures, its size
leaves the flag bit clear, and it does not wrap around the end of memory. -/
def SaneBlock (b : ℕ × ℕ) : Prop := 52 ≤ b.2 ∧ b.2 < 2147483676 ∧ b.1 + b.2 < 4294967296

/-- The bytes of the block are zero. -/
def ZeroBlock (m : Mem) (b : ℕ × ℕ) : Prop := ∀ y, b.1 ≤ y → y < b.1 + b.2 → m y = 0

/-- The block made in zero-filled memory has correct tags. -/
theorem freshBlock_tagged {m : Mem} {b : ℕ × ℕ} (hb : SaneBlock b) (hz : ZeroBlock m b) :
    (freshBlock m b.1 b.2 (List.replicate 3 ⟨0, 0, false⟩)).Tagged := by
  have hge := hb.1
  have hfit := hb.2.2
  have hfirst : prevsize m (b.1 + 20) = 0 := Mem.read32_of_zero fun y hy => by
    have := hy.le_lt (by omega)
    exact hz y (by omega) (by omega)
  refine ⟨.inl hfirst, ?_⟩
  simp only [freshBlock, List.replicate, TaggedFrom, Chunk.Untouched, Chunk.len]
  exact ⟨.inr ⟨by omega, trivial⟩, .inr ⟨by omega, trivial⟩, .inr ⟨by omega, trivial⟩, trivial⟩

/-- A property of the blocks of a heap, and of blocks made in zero-filled memory, holds of all
blocks after some have been added. -/
theorem addBlocks_forall {P : Block → Prop} : ∀ {blocks : List (ℕ × ℕ)} {s : HeapState}
    {bs : List Block}, HeapInv s bs → (∀ b ∈ bs, P b) →
      (∀ b ∈ blocks, SaneBlock b ∧ ZeroBlock s.mem b) → blocks.Pairwise ApartAt →
      (∀ b ∈ blocks, ∀ d ∈ bs, ApartAt b (d.addr, d.size)) →
      (∀ b ∈ blocks, ∀ m, ZeroBlock m b →
        P (freshBlock m b.1 b.2 (List.replicate 3 ⟨0, 0, false⟩))) →
      ∃ bs', HeapInv (blocks.foldl (fun s b => kHeapLCABAddBlock s b.1 b.2) s) bs' ∧ ∀ b ∈ bs', P b
  | [], s, bs, h, hP, _, _, _, _ => ⟨bs, h, hP⟩
  | b :: blocks, s, bs, h, hP, hsane, hpair, hap, hfresh => by
      obtain ⟨⟨hb, hz⟩, hsane⟩ := List.forall_mem_cons.mp hsane
      obtain ⟨hbp, hpair⟩ := List.pairwise_cons.mp hpair
      obtain ⟨hba, hap⟩ := List.forall_mem_cons.mp hap
      obtain ⟨hfb, hfresh⟩ := List.forall_mem_cons.mp hfresh
      rw [List.foldl_cons]
      have hge := hb.1
      have hfit := hb.2.2
      have honly : ∀ y, ¬ (b.1 ≤ y ∧ y < b.1 + b.2) →
          (kHeapLCABAddBlock s b.1 b.2).mem y = s.mem y := fun y hy =>
        addBlock_only s b.1 b.2 (by omega) y fun hy' => hy ⟨hy'.1, by omega⟩
      have hsane' : ∀ d ∈ blocks, SaneBlock d ∧ ZeroBlock (kHeapLCABAddBlock s b.1 b.2).mem d := by
        intro d hd
        obtain ⟨hds, hdz⟩ := hsane d hd
        refine ⟨hds, fun y h1 h2 => ?_⟩
        rw [honly y fun hy => (hbp d hd).1 y hy ⟨h1, h2⟩, hdz y h1 h2]
      rcases Nat.eq_zero_or_pos b.1 with h0 | hpos
      · -- a block at address 0 ends the list
        have hnil : HeapInv (kHeapLCABAddBlock s b.1 b.2) [] := ⟨h0, .nil⟩
        exact addBlocks_forall hnil (by simp) hsane' hpair (by simp) hfresh
      · have htail := tailTiled_of_zero (by omega) hfit fun y h1 h2 => hz y (by omega) h2
        refine addBlocks_forall (addBlock_heapInv h hpos hge hb.2.1 hfit htail hba) ?_ hsane' hpair
          (fun d hd => ?_) hfresh
        · exact List.forall_mem_cons.mpr ⟨hfb _ hz, hP⟩
        · refine List.forall_mem_cons.mpr ⟨?_, hap d hd⟩
          exact (hbp d hd).symm

/-- The heap made of blocks in zero-filled memory, with a property that each of them has. -/
theorem makeHeap_forall {P : Block → Prop} {m : Mem} {heap : KHeapLCAB} {blocks : List (ℕ × ℕ)}
    (hsane : ∀ b ∈ blocks, SaneBlock b ∧ ZeroBlock m b) (hap : blocks.Pairwise ApartAt)
    (hfresh : ∀ b ∈ blocks, ∀ m, ZeroBlock m b →
      P (freshBlock m b.1 b.2 (List.replicate 3 ⟨0, 0, false⟩))) :
    ∃ bs, SysInv blocks bs (makeHeap m heap blocks) ∧ ∀ b ∈ bs, P b := by
  have h0 : HeapInv ⟨m, kHeapLCABInit heap⟩ [] := ⟨rfl, .nil⟩
  obtain ⟨bs, h, hP⟩ := addBlocks_forall (P := fun b => (b.addr, b.size) ∈ blocks ∧ P b) h0
    (by simp) hsane hap (by simp) fun b hb m hz => ⟨hb, hfresh b hb m hz⟩
  exact ⟨bs, ⟨h, fun b hb => (hP b hb).1, ⟨by simp [makeHeap], by simp [makeHeap]⟩⟩,
    fun b hb => (hP b hb).2⟩

end Owmice.Heap
