import Owmice.KernelHeap

/-! # Runs of the kernel's heap

The system of `Owmice.HeapRun` on memory alone: `k_heapLCABInit` and `k_heapLCABAddBlock` make
a heap whose descriptor lies beside its blocks, and then requests, releases of live pointers
and the writes of the rest of the kernel take turns.  The kernel writes neither the descriptor
nor the parts of the blocks that belong to no live payload.

A release that takes the header at `&hdr - (8 + prevsize)` for a free chunk stores through it,
whatever is there; `FreesIdle` says that this does not happen.

* `payloads_safe`: whatever a request returns lies in the block and meets no live payload;
* `payloads_unsafe`: a block without the condition on the bytes behind its first chunk;
* `tags_correct`: runs in which the tags are correct in every state;
* `tags_stale`: a run of four calls after which a tag is wrong. -/

namespace Owmice.KernelHeap

open Heap Tiling

/-- Memory with the payloads that are live: pointer and requested size. -/
structure KernelSys where
  mem : Mem
  live : List (ℕ × ℕ)

/-- The state of the heap, its descriptor read out. -/
def KernelSys.heapAt (s : KernelSys) (heap : ℕ) : HeapState := ⟨s.mem, descriptor s.mem heap⟩

/-- One step of the system; a call that does not return is no step. -/
inductive KernelStep (heap : ℕ) (blocks : List (ℕ × ℕ)) : KernelSys → HeapEvent → KernelSys → Prop
  | alloc {s : KernelSys} {size fuel p : ℕ} {m : Mem} :
      kHeapLCABAlloc heap fuel s.mem size = some (p, m) →
      KernelStep heap blocks s (.alloc size) ⟨m, if p = 0 then s.live else (p, size) :: s.live⟩
  | free {s : KernelSys} {ptr n hdrVar fuel : ℕ} {m : Mem} :
      (ptr, n) ∈ s.live → kHeapLCABFree heap fuel s.mem hdrVar ptr = some m →
      KernelStep heap blocks s (.free ptr hdrVar) ⟨m, s.live.filter (fun e => e.1 ≠ ptr)⟩
  | write {s : KernelSys} {m : Mem} :
      (∀ y, InBlocks blocks y → ¬ InLive s.live y → m y = s.mem y) →
      (∀ y, InHeap heap y → m y = s.mem y) →
      KernelStep heap blocks s (.write m) ⟨m, s.live⟩

/-- The heap after `k_heapLCABInit` and one call of `k_heapLCABAddBlock` for every block. -/
def makeHeap (heap : ℕ) (m : Mem) (blocks : List (ℕ × ℕ)) : KernelSys :=
  ⟨blocks.foldl (fun m b => kHeapLCABAddBlock heap m b.1 b.2) (kHeapLCABInit heap m), []⟩

/-- A release takes no free chunk for the preceding one. -/
def FreesIdle (heap : ℕ) (blocks : List (ℕ × ℕ)) (s : KernelSys) : HeapEvent → Prop
  | .free ptr hdrVar => ∀ b ∈ blocks, b.1 < ptr → ptr < b.1 + b.2 →
      FreeIdle heap (freeUnflag s.mem (sub32 ptr 8)) b.1 (sub32 ptr 8) hdrVar
  | _ => True

/-- The invariant of a run: the heap, and a property `P` of its blocks. -/
def KernelInv (P : Block → Prop) (heap : ℕ) (blocks : List (ℕ × ℕ)) (s : KernelSys) : Prop :=
  ∃ bs, SysInv blocks bs ⟨s.heapAt heap, s.live⟩ ∧ ∀ b ∈ bs, P b

/-- Requests that meet `G`, and releases, keep the property `P` of the block that they work on. -/
structure Kept (P : Block → Prop) (G : HeapState → HeapEvent → Prop) : Prop where
  take : ∀ {s : HeapState} {size fuel : ℕ} {b : Block} {pre post : List Chunk} {c : Chunk},
    G s (.alloc size) → BlockAt s.mem b → P b → b.chunks = pre ++ c :: post →
    allocFind s.mem size fuel fuel s.heap.fblock =
      some (some (b.addr, stop Chunk.len (b.addr + 20) pre)) →
    ∀ u, P { b with used := u, chunks := pre ++ (c.take size ++ post) }
  coalesce : ∀ {b : Block} {pre post : List Chunk} {c : Chunk}, P b →
    b.chunks = pre ++ c :: post → c.used = true →
    ∀ u, P { b with used := u, chunks := pre ++ c.clear.coalesce post }

section runs

variable {heap addr size : ℕ} {blocks : List (ℕ × ℕ)} {m : Mem} {s s' : KernelSys}
  {ev : HeapEvent} {tr : List (KernelSys × HeapEvent)} {cs : List Chunk}
  {P : Block → Prop} {G : HeapState → HeapEvent → Prop}

/-! ### Making the heap -/

/-- The heap that is made in memory, seen from outside. -/
theorem view_makeHeap (hbe : Beside heap blocks)
    (hfit : ∀ b ∈ blocks, 28 ≤ b.2 ∧ b.1 + b.2 < 4294967296) :
    view heap m (makeHeap heap m blocks).mem =
      (Heap.makeHeap m (descriptor m heap) blocks).st := by
  have hfold : ∀ (bs : List (ℕ × ℕ)) (m' : Mem), (∀ b ∈ bs, b ∈ blocks) →
      view heap m (bs.foldl (fun m b => kHeapLCABAddBlock heap m b.1 b.2) m') =
        bs.foldl (fun s b => Heap.kHeapLCABAddBlock s b.1 b.2) (view heap m m') := by
    intro bs
    induction bs with
    | nil => exact fun _ _ => rfl
    | cons b bs ih =>
        intro m' hbs
        have hb := hbs b List.mem_cons_self
        have hge := (hfit b hb).1
        have hlt := (hfit b hb).2
        rw [List.foldl_cons, List.foldl_cons, ih _ fun d hd => hbs d (List.mem_cons_of_mem _ hd),
          view_kHeapLCABAddBlock hbe.1 (by omega) fun a h1 h2 => hbe.off hb hlt h1 (by omega)]
  rw [makeHeap, hfold blocks _ fun _ h => h, view_kHeapLCABInit hbe.1, under_self]
  rfl

/-- What holds of the heap that is made beside its descriptor holds of the heap in memory. -/
theorem makeHeap_kernelInv (hbe : Beside heap blocks)
    (hfit : ∀ b ∈ blocks, 28 ≤ b.2 ∧ b.1 + b.2 < 4294967296)
    (h : ∃ bs, SysInv blocks bs (Heap.makeHeap m (descriptor m heap) blocks) ∧ ∀ b ∈ bs, P b) :
    KernelInv P heap blocks (makeHeap heap m blocks) := by
  obtain ⟨bs, hbs, hP⟩ := h
  refine ⟨bs, sysInv_of_view (n := m) hbe ?_, hP⟩
  rw [view_makeHeap hbe hfit]
  exact hbs

/-! ### Steps -/

/-- A write that leaves the descriptor alone. -/
theorem descriptor_congr (hheap : heap + 16 ≤ 4294967296) {m' : Mem}
    (h : ∀ y, InHeap heap y → m' y = m y) : descriptor m' heap = descriptor m heap := by
  have hword : ∀ k ≤ 12, m'.read32 (heap + k) = m.read32 (heap + k) := fun k hk =>
    Mem.read32_congr fun y hy => h y (word_in hheap hk y hy)
  have h0 := hword 0 (by omega)
  have h1 := hword 4 (by omega)
  have h2 := hword 8 (by omega)
  have h3 := hword 12 (by omega)
  rw [Nat.add_zero] at h0
  simp only [descriptor, fblock, bcnt, memInUse, heapSize, h0, h1, h2, h3]

theorem step_kernelInv (hbe : Beside heap blocks) (hk : Kept P G)
    (h : KernelInv P heap blocks s) (hidle : FreesIdle heap blocks s ev)
    (hG : G (s.heapAt heap) ev) (hs : KernelStep heap blocks s ev s') :
    KernelInv P heap blocks s' := by
  obtain ⟨bs, h, hall⟩ := h
  cases hs with
  | alloc ha =>
      rcases alloc_sysInv hbe h ha with ⟨rfl, rfl⟩ |
        ⟨bs₁, b, bs₂, pre, c, post, u, rfl, hch, hfind, hp, h'⟩
      · exact ⟨bs, h, hall⟩
      · rw [if_neg (by omega)]
        have hb : b ∈ bs₁ ++ b :: bs₂ := by simp
        exact ⟨_, h', forall_mem_update hall
          (hk.take hG (h.heap.blocks.mem b hb) (hall b hb) hch hfind u)⟩
  | free hlive hf =>
      obtain ⟨bs₁, b, bs₂, pre, c, post, u, rfl, hch, hu, h'⟩ := free_sysInv hbe h hlive
        (fun d hd hlo hhi => hidle _ (h.among d hd) hlo hhi) hf
      exact ⟨_, h', forall_mem_update hall (hk.coalesce (hall b (by simp)) hch hu u)⟩
  | write hm hheap =>
      have h' := write_sysInv h hm
      rw [KernelSys.heapAt, ← descriptor_congr hbe.1 hheap] at h'
      exact ⟨bs, h', hall⟩

/-- The invariant holds in every state of a run. -/
theorem run_kernelInv (hbe : Beside heap blocks) (hk : Kept P G)
    (hrun : Run (KernelStep heap blocks) s tr s') (h : KernelInv P heap blocks s)
    (hok : ∀ p ∈ tr, FreesIdle heap blocks p.1 p.2 ∧ G (p.1.heapAt heap) p.2) :
    ∀ x ∈ visited tr s', KernelInv P heap blocks x :=
  hrun.invariant_visited (G := fun s e => FreesIdle heap blocks s e ∧ G (s.heapAt heap) e)
    (fun _ _ _ h hg hs => step_kernelInv hbe hk h hg.1 hg.2 hs) h hok

/-! ### Given calls -/

/-- The state after a call, when it returns. -/
def KernelSys.next (heap : ℕ) (s : KernelSys) : HeapEvent → KernelSys
  | .alloc size =>
      match kHeapLCABAlloc heap 9 s.mem size with
      | some (p, m) => ⟨m, if p = 0 then s.live else (p, size) :: s.live⟩
      | none => s
  | .free ptr hdrVar =>
      match kHeapLCABFree heap 9 s.mem hdrVar ptr with
      | some m => ⟨m, s.live.filter (fun e => e.1 ≠ ptr)⟩
      | none => s
  | .write m => ⟨m, s.live⟩

/-- The event is a call that returns, and it releases live pointers only. -/
def KernelSys.Returns (heap : ℕ) (s : KernelSys) : HeapEvent → Prop
  | .alloc size => (kHeapLCABAlloc heap 9 s.mem size).isSome
  | .free ptr hdrVar =>
      ptr ∈ s.live.map Prod.fst ∧ (kHeapLCABFree heap 9 s.mem hdrVar ptr).isSome
  | .write _ => False

instance (heap : ℕ) (s : KernelSys) : (ev : HeapEvent) → Decidable (s.Returns heap ev)
  | .alloc _ => inferInstanceAs (Decidable (_ = true))
  | .free _ _ => inferInstanceAs (Decidable (_ ∧ _))
  | .write _ => inferInstanceAs (Decidable False)

theorem KernelSys.step_next (h : s.Returns heap ev) :
    KernelStep heap blocks s ev (s.next heap ev) := by
  cases ev with
  | alloc size =>
      obtain ⟨⟨p, m⟩, hs⟩ := Option.isSome_iff_exists.mp h
      simp only [KernelSys.next, hs]
      exact .alloc hs
  | free ptr hdrVar =>
      obtain ⟨hlive, hret⟩ := h
      obtain ⟨⟨p, n⟩, hmem, rfl⟩ := List.mem_map.mp hlive
      obtain ⟨m, hs⟩ := Option.isSome_iff_exists.mp hret
      simp only [KernelSys.next, hs]
      exact .free hmem hs
  | write m => cases h

instance (heap : ℕ) (blocks : List (ℕ × ℕ)) (s : KernelSys) :
    (ev : HeapEvent) → Decidable (FreesIdle heap blocks s ev)
  | .alloc _ => inferInstanceAs (Decidable True)
  | .free _ _ => inferInstanceAs (Decidable (∀ b ∈ blocks, _))
  | .write _ => inferInstanceAs (Decidable True)

/-! ### Payloads -/

/-- Whatever a request returns in state `s` lies in the payload area of the block and meets no
live payload. -/
def AllocSafe (heap addr size : ℕ) (s : KernelSys) : Prop :=
  ∀ n fuel p m, kHeapLCABAlloc heap fuel s.mem n = some (p, m) → p ≠ 0 →
    (addr + 28 ≤ p ∧ p + n ≤ addr + size) ∧ ∀ e ∈ s.live, p + n ≤ e.1 ∨ e.1 + e.2 ≤ p

theorem KernelInv.allocSafe (hbe : Beside heap [(addr, size)])
    (h : KernelInv P heap [(addr, size)] s) : AllocSafe heap addr size s := by
  obtain ⟨bs, h, -⟩ := h
  intro n fuel p m hs hp
  rcases alloc_sysInv hbe h hs with ⟨h0, -⟩ | ⟨_, _, _, _, _, _, _, _, _, _, _, h'⟩
  · exact absurd h0 hp
  · exact h'.newest_safe

/-- Requests are safe in every state of a run from a block whose bytes behind the first chunk
fit it, when no release takes a free chunk for the preceding one. -/
theorem payloads_safe (hbe : Beside heap [(addr, size)]) (hge : 60 ≤ size)
    (hlt : size < 2147483676) (hfit : addr + size < 4294967296) (ht : TailTiled m addr size cs)
    (hrun : Run (KernelStep heap [(addr, size)]) (makeHeap heap m [(addr, size)]) tr s)
    (hok : ∀ p ∈ tr, FreesIdle heap [(addr, size)] p.1 p.2) :
    ∀ x ∈ visited tr s, AllocSafe heap addr size x := by
  have hkept : Kept (fun _ => True) (fun _ _ => True) :=
    ⟨fun _ _ _ _ _ _ => trivial, fun _ _ _ _ => trivial⟩
  obtain ⟨bs, hbs⟩ : ∃ bs, SysInv [(addr, size)] bs
      (Heap.makeHeap m (descriptor m heap) [(addr, size)]) :=
    makeHeap_sysInv (by omega) hlt hfit ht
  have hstart := makeHeap_kernelInv (P := fun _ => True) hbe (by simp; omega)
    ⟨bs, hbs, fun _ _ => trivial⟩
  intro x hx
  exact (run_kernelInv hbe hkept hrun hstart (fun p hp => ⟨hok p hp, trivial⟩) x hx).allocSafe hbe

/-- Memory that is zero but for the kernel's stack from 8192 on, whose words have bit 31 set. -/
def stackMem : Mem := fun y => if 8192 ≤ y ∧ y < 12288 then 255 else 0

/-- Requests and releases: the first release leaves a hole that the next request splits, the
second one merges with the chunk behind it. -/
def someCalls : List HeapEvent :=
  [.alloc 100, .alloc 20, .free 4124 12000, .alloc 40, .free 4232 12000, .alloc 60]

def someStart : KernelSys := makeHeap 64 stackMem [(4096, 300)]

/-- The block at 4096 is sane, and zero. -/
theorem stackMem_block : SaneBlock (4096, 300) ∧ ZeroBlock stackMem (4096, 300) := by
  refine ⟨by simp [SaneBlock], fun y _ hy => ?_⟩
  rw [stackMem, if_neg (by omega)]

/-- A descriptor below the block, and above the word that a block at the end of memory has
behind it. -/
theorem beside_of_le (hlo : 4 ≤ heap) (hhi : heap + 16 ≤ addr) (hfit : addr + size < 4294967296) :
    Beside heap [(addr, size)] := by
  refine ⟨by omega, ?_⟩
  simp only [InHeap, InWord, w32, List.mem_singleton, forall_eq]
  intro y hy
  omega

/-- The theorem for these calls: they return, and leave two payloads. -/
theorem payloads_safe_calls :
    (someCalls.foldl (KernelSys.next 64) someStart).live = [(4232, 60), (4124, 40)] ∧
      ∀ x ∈ visited (traceOf (KernelSys.next 64) someStart someCalls)
        (someCalls.foldl (KernelSys.next 64) someStart), AllocSafe 64 4096 300 x := by
  have hreturn : ∀ p ∈ traceOf (KernelSys.next 64) someStart someCalls, p.1.Returns 64 p.2 := by
    decide +kernel
  have hidle : ∀ p ∈ traceOf (KernelSys.next 64) someStart someCalls,
      FreesIdle 64 [(4096, 300)] p.1 p.2 := by
    decide +kernel
  refine ⟨by decide +kernel, ?_⟩
  exact payloads_safe (beside_of_le (by decide) (by decide) (by decide)) (by decide) (by decide)
    (by decide)
    (tailTiled_of_zero (by decide) (by decide) fun y hlo => stackMem_block.2 y (by omega))
    (.of_events someCalls someStart fun p hp => KernelSys.step_next (hreturn p hp)) hidle

/-- Bytes behind the first chunk of the block at 4096 that read as a header with a large size. -/
def wildTail : Mem := fun y =>
  if y = 4136 ∨ y = 4137 ∨ y = 4138 then 255 else if y = 4139 then 127 else 0

/-- Without the condition on these bytes, even the first request can return a payload that
leaves the block. -/
theorem payloads_unsafe :
    ¬ ∀ (heap : ℕ) (m : Mem) (addr size : ℕ), Beside heap [(addr, size)] → 60 ≤ size →
      addr + size < 4294967296 → ∀ (tr : List (KernelSys × HeapEvent)) (s : KernelSys),
        Run (KernelStep heap [(addr, size)]) (makeHeap heap m [(addr, size)]) tr s →
        (∀ p ∈ tr, ∀ m', p.2 ≠ .write m') → ∀ x ∈ visited tr s, AllocSafe heap addr size x := by
  intro h
  have hbe : Beside 64 [(4096, 60)] := beside_of_le (by decide) (by decide) (by decide)
  have hsafe := h 64 wildTail 4096 60 hbe (by decide) (by decide) [] _ (.nil _) (by simp) _
    List.mem_cons_self
  have halloc : (kHeapLCABAlloc 64 5 (makeHeap 64 wildTail [(4096, 60)]).mem 20).map Prod.fst =
      some 4140 := by
    decide +kernel
  obtain ⟨⟨p, m⟩, hm, rfl⟩ := Option.map_eq_some_iff.mp halloc
  have := (hsafe 20 5 _ m hm (by simp)).1
  omega

/-! ### Tags -/

/-- Requests that take the last chunk, and releases, keep correct tags correct. -/
theorem kept_tagged : Kept Block.Tagged TakesLast where
  take hG hat ht hch hfind u :=
    let ⟨hlast, hempty⟩ := hG _ _ _ hfind
    ht.take hat hch hlast hempty u
  coalesce ht hch hu u := ht.coalesce hch hu u

/-- Tags stay correct in every state of a run from zero-filled blocks that lie apart, when
requests split only last chunks and make a chunk of untouched bytes only behind an empty one,
and no release takes a free chunk for the preceding one. -/
theorem tags_correct (hbe : Beside heap blocks)
    (hsane : ∀ b ∈ blocks, SaneBlock b ∧ ZeroBlock m b) (hap : blocks.Pairwise ApartAt)
    (hrun : Run (KernelStep heap blocks) (makeHeap heap m blocks) tr s)
    (hok : ∀ p ∈ tr, FreesIdle heap blocks p.1 p.2 ∧ TakesLast (p.1.heapAt heap) p.2) :
    ∀ x ∈ visited tr s, ∀ hb, OnList (x.heapAt heap) hb → TagsCorrect x.mem hb := by
  have hstart : KernelInv Block.Tagged heap blocks (makeHeap heap m blocks) :=
    makeHeap_kernelInv hbe
      (fun b hb => ⟨le_trans (by omega) (hsane b hb).1.1, (hsane b hb).1.2.2⟩)
      (makeHeap_forall hsane hap fun b hb _ hz => freshBlock_tagged (hsane b hb).1 hz)
  intro x hx hb hl
  obtain ⟨bs, h, ht⟩ := run_kernelInv hbe kept_tagged hrun hstart hok x hx
  obtain ⟨b, hbm, rfl⟩ := h.heap.of_onList hl
  exact (h.heap.blocks.mem b hbm).tagsCorrect (hsane _ (h.among b hbm)).1.1 (ht b hbm)

/-! ### A stale tag -/

instance (m : Mem) (hb hdr size : ℕ) : Decidable (SplitsLast m hb hdr size) := by
  unfold SplitsLast
  infer_instance

/-- The search of a request ends, and the chunk that it finds is not of untouched bytes and is
split only at the end of the chunks. -/
def TakesTouched (s : HeapState) : HeapEvent → Prop
  | .alloc size => ∃ r ∈ allocFind s.mem size 9 9 s.heap.fblock, ∀ q ∈ r,
      SplitsLast s.mem q.1 q.2 size ∧ ¬ Untouched s.mem q.1 q.2
  | _ => True

instance (s : HeapState) : (ev : HeapEvent) → Decidable (TakesTouched s ev)
  | .alloc _ => inferInstanceAs (Decidable (∃ r ∈ _, _))
  | .free _ _ => inferInstanceAs (Decidable True)
  | .write _ => inferInstanceAs (Decidable True)

theorem TakesTouched.takesLast {s : HeapState} (h : TakesTouched s ev) : TakesLast s ev := by
  cases ev with
  | alloc size =>
      intro fuel hb hdr hfind
      obtain ⟨r, hr, hq⟩ := h
      obtain rfl := allocFind_unique hfind hr
      obtain ⟨hsplit, htouched⟩ := hq (hb, hdr) rfl
      exact ⟨hsplit, fun hun => absurd hun htouched⟩
  | free ptr hdrVar => trivial
  | write m => trivial

/-- Requests and releases: the hole that the first release leaves is taken whole, and so is the
chunk that the second one makes at the end of the block. -/
def wholeCalls : List HeapEvent :=
  [.alloc 100, .alloc 10, .free 4124 12000, .alloc 90, .free 4232 12000, .alloc 120]

/-- The theorem for these calls. -/
theorem tags_correct_calls :
    (wholeCalls.foldl (KernelSys.next 64) someStart).live = [(4232, 120), (4124, 90)] ∧
      ∀ x ∈ visited (traceOf (KernelSys.next 64) someStart wholeCalls)
        (wholeCalls.foldl (KernelSys.next 64) someStart),
        ∀ hb, OnList (x.heapAt 64) hb → TagsCorrect x.mem hb := by
  have hreturn : ∀ p ∈ traceOf (KernelSys.next 64) someStart wholeCalls, p.1.Returns 64 p.2 := by
    decide +kernel
  have hok : ∀ p ∈ traceOf (KernelSys.next 64) someStart wholeCalls,
      FreesIdle 64 [(4096, 300)] p.1 p.2 ∧ TakesTouched (p.1.heapAt 64) p.2 := by
    decide +kernel
  have hsane : ∀ b ∈ [(4096, 300)], SaneBlock b ∧ ZeroBlock stackMem b :=
    List.forall_mem_singleton.mpr stackMem_block
  refine ⟨by decide +kernel, ?_⟩
  exact tags_correct (beside_of_le (by decide) (by decide) (by decide)) hsane (by simp)
    (.of_events wholeCalls someStart fun p hp => KernelSys.step_next (hreturn p hp))
    fun p hp => ⟨(hok p hp).1, (hok p hp).2.takesLast⟩

/-- Requests of 100 and 10 bytes, the release of the first, and a request of 10 bytes, which
splits the released chunk. -/
def staleCalls : List HeapEvent := [.alloc 100, .alloc 10, .free 4124 12000, .alloc 10]

/-- The heap after these calls. -/
def stale : KernelSys := staleCalls.foldl (KernelSys.next 64) someStart

/-- The split of a chunk that is not the last of its block leaves the tag behind it stale. -/
theorem tags_stale :
    ¬ ∀ (heap : ℕ) (m : Mem) (blocks : List (ℕ × ℕ)), Beside heap blocks →
      (∀ b ∈ blocks, SaneBlock b ∧ ZeroBlock m b) → blocks.Pairwise ApartAt →
      ∀ (tr : List (KernelSys × HeapEvent)) (s : KernelSys),
        Run (KernelStep heap blocks) (makeHeap heap m blocks) tr s →
        (∀ p ∈ tr, FreesIdle heap blocks p.1 p.2 ∧ ∀ m', p.2 ≠ .write m') →
        ∀ x ∈ visited tr s, ∀ hb, OnList (x.heapAt heap) hb → TagsCorrect x.mem hb := by
  intro h
  have hreturn : ∀ p ∈ traceOf (KernelSys.next 64) someStart staleCalls, p.1.Returns 64 p.2 := by
    decide +kernel
  have hidle : ∀ p ∈ traceOf (KernelSys.next 64) someStart staleCalls,
      FreesIdle 64 [(4096, 300)] p.1 p.2 := by
    decide +kernel
  have hcalls : ∀ p ∈ traceOf (KernelSys.next 64) someStart staleCalls, ∀ m', p.2 ≠ .write m' := by
    intro p hp m' he
    have hp := hreturn p hp
    rw [he] at hp
    exact hp
  have hsane : ∀ b ∈ [(4096, 300)], SaneBlock b ∧ ZeroBlock stackMem b :=
    List.forall_mem_singleton.mpr stackMem_block
  have htags := h 64 stackMem [(4096, 300)] (beside_of_le (by decide) (by decide) (by decide))
    hsane (by simp) _ stale
    (.of_events staleCalls someStart fun p hp => KernelSys.step_next (hreturn p hp))
    (fun p hp => ⟨hidle p hp, hcalls p hp⟩) stale (by simp [stale, visited])
  have hfirst : (descriptor stale.mem 64).fblock = 4096 := by decide +kernel
  have htags := htags 4096 (hfirst ▸ .first (by rw [KernelSys.heapAt, hfirst]; decide))
  have hnext : 4116 + 8 + chunkSize stale.mem 4116 = 4134 := by decide +kernel
  have hrest : 4134 + 8 + chunkSize stale.mem 4134 = 4224 := by decide +kernel
  have hsize : hbSize stale.mem 4096 = 300 := by decide +kernel
  have hhdr : ChunkHdr stale.mem 4096 4134 :=
    hnext ▸ .next .first (by rw [hnext, hsize]; decide)
  have hbad := htags.2 4134 hhdr (by rw [hrest, hsize]; decide)
  rw [hrest] at hbad
  exact absurd hbad (by decide +kernel)

end runs

end Owmice.KernelHeap
