import Owmice.BootLayout

/-! # Frames after boot

When `pmem_init` has set up the bitmap, `kmain` marks the ramdisk and the kernel as used.  The size
of the kernel is the difference of two pointers to words, a quarter of its bytes, and regions are
marked in whole frames, counted from the frame that they start in.  What `malloc` has handed out
and the kernel heap are not marked at all.

* `Free`: a frame that may be handed out;
* `FrameGood`: what a clear bit does not imply of it;
* `ComesUp`: the frames that runs of `alloc_block` hand out, found from the state before the run;
* `Machine.leavesClear`: the frames that the setup leaves clear, found from the map, the kernel and
  the ramdisk;
* `frames_free_iff`: when `alloc_block` hands out free frames only. -/

namespace Owmice.Frames

open FrameState Heap

/-! ### The setup -/

/-- `k_entry`. -/
def kEntry : ℕ := 0x100000

/-- What the loop of `pmem_init` takes for `kernel_mem` and for the heap. -/
def pmemTaken : Boot → List MmapEntry → List Region
  | _, [] => []
  | s, e :: entries =>
      let s' := pmemEntry s e
      (if e.Usable ∧ s.kernelMem = 0 then [⟨s'.kernelMem, sizeofMem⟩, heapRegion s'] else []) ++
        pmemTaken s' entries

/-- What `malloc` has handed out before there is a heap, and the heap. -/
def bootTaken (mbt : MultibootInfo) (initrdLocation initrdEnd : ℕ) (s : Boot)
    (entries : List MmapEntry) : List Region :=
  let start := kmainStart initrdLocation initrdEnd s
  let memoryMap := (alloc start.2 (bitmapBytes mbt) false).1
  start.1 ++ ⟨memoryMap, bitmapBytes mbt⟩ :: pmemTaken (pmemStart mbt start.2) entries

/-- `kmain` up to the second `mem_deinit_region`; `&end - &k_entry` counts words. -/
def kmainSetup (fuel : ℕ) (mbt : MultibootInfo) (initrdLocation initrdEnd : ℕ) (s : Boot) :
    Option Boot :=
  (pmemInit fuel mbt (kmainStart initrdLocation initrdEnd s).2).map fun r =>
    let frames := memDeinitRegion initrdLocation (sub32 initrdEnd initrdLocation) r.frames
    { r with frames := memDeinitRegion kEntry (s.kernelSize / 4) frames }

/-! ### Free frames -/

/-- Byte `y` belongs to frame `f`. -/
def InFrame (f y : ℕ) : Prop := 4096 * f ≤ y ∧ y < 4096 * f + 4096

/-- Byte `y` is available memory. -/
def Available (entries : List MmapEntry) (y : ℕ) : Prop :=
  ∃ e ∈ entries, e.type = 1 ∧ e.baseAddrLow ≤ y ∧ y < e.baseAddrLow + e.lengthLow

/-- The map and what lies in memory after the boot. -/
structure Machine where
  entries : List MmapEntry
  kernelSize : ℕ
  initrdLocation : ℕ
  initrdEnd : ℕ
  taken : List Region

/-- Frame `f` lies in available memory, and meets neither the kernel nor the ramdisk nor what
has been handed out. -/
structure Free (k : Machine) (f : ℕ) : Prop where
  available : ∀ y, InFrame f y → Available k.entries y
  kernel : ∀ y, InFrame f y → ¬ (kEntry ≤ y ∧ y < kEntry + k.kernelSize)
  ramdisk : ∀ y, InFrame f y → ¬ (k.initrdLocation ≤ y ∧ y < k.initrdEnd)
  taken : ∀ y, InFrame f y → ∀ g ∈ k.taken, ¬ g.Has y

/-- The region of the entry has frame `f` as one of its whole frames, counted from the one that
it starts in. -/
def MmapEntry.HasFrame (e : MmapEntry) (f : ℕ) : Prop :=
  e.baseAddrLow / 4096 ≤ f ∧ f < e.baseAddrLow / 4096 + e.lengthLow / 4096

instance (e : MmapEntry) (f : ℕ) : Decidable (e.HasFrame f) := by
  unfold MmapEntry.HasFrame
  infer_instance

/-- What a clear bit does not imply.  The bytes of the frame are available as far as they do not
lie in a usable region that has the frame; and the frame does not meet the kernel behind its
first quarter, the end of the ramdisk, and what has been handed out. -/
structure FrameGood (k : Machine) (f : ℕ) : Prop where
  available : ∀ y, InFrame f y →
    (∀ e ∈ k.entries, e.Usable → e.HasFrame f → y < e.baseAddrLow) → Available k.entries y
  kernel : ∀ y, InFrame f y →
    ¬ (kEntry + k.kernelSize / 4 / 4096 * 4096 ≤ y ∧ y < kEntry + k.kernelSize)
  ramdisk : ∀ y, InFrame f y → ¬ (k.initrdLocation ≤ y ∧ y < k.initrdEnd ∧
    (k.initrdLocation / 4096 + (k.initrdEnd - k.initrdLocation) / 4096) * 4096 ≤ y)
  taken : ∀ y, InFrame f y → ∀ g ∈ k.taken, ¬ g.Has y

/-- The bytes of a usable region from its base on are available. -/
theorem available_of_hasFrame {entries : List MmapEntry} {e : MmapEntry} {f y : ℕ}
    (he : e ∈ entries) (hu : e.Usable) (hf : e.HasFrame f) (hy : InFrame f y)
    (hbase : e.baseAddrLow ≤ y) : Available entries y := by
  obtain ⟨h1, h2⟩ := hf
  obtain ⟨h3, h4⟩ := hy
  exact ⟨e, he, hu.1, hbase, by omega⟩

/-- The frames that `kmain` has marked. -/
structure Marked (k : Machine) (s : FrameState) : Prop where
  ramdisk : ∀ f, k.initrdLocation / 4096 ≤ f →
    f < k.initrdLocation / 4096 + (k.initrdEnd - k.initrdLocation) / 4096 → s.mmapTest f = true
  kernel : ∀ f, kEntry / 4096 ≤ f → f < kEntry / 4096 + k.kernelSize / 4 / 4096 →
    s.mmapTest f = true

/-- A frame that is not marked is free exactly if it is good. -/
theorem Marked.free_iff {k : Machine} {s : FrameState} (h : Marked k s) {f : ℕ}
    (hf : s.mmapTest f = false) : Free k f ↔ FrameGood k f := by
  constructor
  · intro hfree
    refine ⟨fun y hy _ => hfree.available y hy, fun y hy hin => hfree.kernel y hy ⟨by omega, hin.2⟩,
      fun y hy hin => hfree.ramdisk y hy ⟨hin.1, hin.2.1⟩, hfree.taken⟩
  · intro hgood
    refine ⟨fun y hy => ?_, fun y hy hin => ?_, fun y hy hin => ?_, hgood.taken⟩
    · by_cases hcut : ∀ e ∈ k.entries, e.Usable → e.HasFrame f → y < e.baseAddrLow
      · exact hgood.available y hy hcut
      · simp only [not_forall, not_lt] at hcut
        obtain ⟨e, he, hu, hhas, hbase⟩ := hcut
        exact available_of_hasFrame he hu hhas hy hbase
    · obtain ⟨h1, h2⟩ := hy
      by_cases hquarter : kEntry + k.kernelSize / 4 / 4096 * 4096 ≤ y
      · exact hgood.kernel y ⟨h1, h2⟩ ⟨hquarter, hin.2⟩
      · have hset := h.kernel f (by simp only [kEntry] at *; omega) (by simp only [kEntry] at *; omega)
        rw [hf] at hset
        cases hset
    · obtain ⟨h1, h2⟩ := hy
      by_cases hwhole :
          (k.initrdLocation / 4096 + (k.initrdEnd - k.initrdLocation) / 4096) * 4096 ≤ y
      · exact hgood.ramdisk y ⟨h1, h2⟩ ⟨hin.1, hin.2, hwhole⟩
      · have hset := h.ramdisk f (by omega) (by omega)
        rw [hf] at hset
        cases hset

/-! ### Runs of `alloc_block` -/

/-- Calls of `alloc_block` that return. -/
inductive AllocStep : FrameSys → Unit → FrameSys → Prop
  | alloc {s : FrameSys} {p : ℕ} {st : FrameState} :
      allocBlock s.st = .returns p st → AllocStep s () ⟨st, p :: s.live⟩

/-- Every frame that has been handed out is free. -/
def HandedOutFree (k : Machine) (s : FrameSys) : Prop :=
  ∀ p ∈ s.live, p = 4096 * (p / 4096) ∧ Free k (p / 4096)

theorem lowest_le {s : FrameState} {f g : ℕ} (hg : Lowest s g) (hf : s.mmapTest f = false) : g ≤ f := by
  by_contra hlt
  rw [hg.2.2 f (not_le.mp hlt)] at hf
  cases hf

/-- The clear frames below `f`. -/
def clearBelow (s : FrameState) (f : ℕ) : Finset ℕ :=
  (Finset.range f).filter fun g => s.mmapTest g = false

/-- Calls of `alloc_block` get to the frame: its bit is clear, and the counter leaves room for the
clear frames below it and for the frame itself. -/
structure ComesUp (s : FrameState) (f : ℕ) : Prop where
  lt : f < 32 * (s.blocksMax / 32)
  clear : s.mmapTest f = false
  counter : s.blocksUsed + (clearBelow s f).card < s.blocksMax

section ComesUp

variable {s : FrameState} {f g : ℕ}

theorem mmapTest_allocated (x : ℕ) :
    ((s.mmapSet g).addUsed 1).mmapTest x = false ↔ x ≠ g ∧ s.mmapTest x = false := by
  rw [← Bool.not_eq_true, ← Bool.not_eq_true, mmapTest_addUsed, mmapTest_mmapSet, not_or]

theorem clearBelow_allocated : clearBelow ((s.mmapSet g).addUsed 1) f = (clearBelow s f).erase g := by
  ext x
  simp only [clearBelow, Finset.mem_filter, Finset.mem_range, Finset.mem_erase, mmapTest_allocated]
  tauto

theorem blocksUsed_allocated (hmax : s.blocksMax < 1048576) (hused : s.blocksUsed < s.blocksMax) :
    ((s.mmapSet g).addUsed 1).blocksUsed = s.blocksUsed + 1 := by
  simp only [addUsed, mmapSet]
  exact w32_of_lt (by omega)

/-- A call takes the lowest clear frame, and the others come up after it as before. -/
theorem comesUp_step_iff (hmax : s.blocksMax < 1048576) (hused : s.blocksUsed < s.blocksMax)
    (hg : Lowest s g) : ComesUp s f ↔ f = g ∨ ComesUp ((s.mmapSet g).addUsed 1) f := by
  have hbelow : f ≠ g → s.mmapTest f = false →
      (clearBelow s f).card = ((clearBelow s f).erase g).card + 1 := by
    intro hne hf
    have hle := lowest_le hg hf
    refine (Finset.card_erase_add_one ?_).symm
    exact Finset.mem_filter.mpr ⟨Finset.mem_range.mpr (by omega), hg.2.1⟩
  constructor
  · rintro ⟨hlt, hclear, hcounter⟩
    rcases eq_or_ne f g with heq | hne
    · exact .inl heq
    · refine .inr ⟨by simpa using hlt, mmapTest_allocated f |>.mpr ⟨hne, hclear⟩, ?_⟩
      rw [blocksUsed_allocated hmax hused, clearBelow_allocated, blocksMax_addUsed,
        blocksMax_mmapSet]
      have := hbelow hne hclear
      omega
  · rintro (rfl | ⟨hlt, hclear, hcounter⟩)
    · have hempty : clearBelow s f = ∅ := by
        rw [clearBelow, Finset.filter_eq_empty_iff]
        intro x hx
        rw [hg.2.2 x (Finset.mem_range.mp hx)]
        simp
      exact ⟨hg.1, hg.2.1, by rw [hempty]; exact hused⟩
    · obtain ⟨hne, hclear⟩ := (mmapTest_allocated f).mp hclear
      rw [blocksUsed_allocated hmax hused, clearBelow_allocated, blocksMax_addUsed,
        blocksMax_mmapSet] at hcounter
      refine ⟨by simpa using hlt, hclear, ?_⟩
      have := hbelow hne hclear
      omega

end ComesUp

/-- A run hands out nothing else. -/
theorem comesUp_of_run {u t : FrameSys} {tr : List (FrameSys × Unit)} (hrun : Run AllocStep u tr t)
    (hmax : u.st.blocksMax < 1048576) :
    ∀ x ∈ visited tr t, ∀ p ∈ x.live, p ∈ u.live ∨ ∃ f, p = 4096 * f ∧ ComesUp u.st f := by
  induction hrun with
  | nil u =>
      intro x hx p hp
      rw [visited_nil, List.mem_singleton] at hx
      exact .inl (hx ▸ hp)
  | @cons u u₁ t e tr hstep _ ih =>
      cases hstep with
      | alloc ha =>
          obtain ⟨g, hg, hused, rfl, rfl⟩ := allocBlock_returns ha
          have hiff := fun f => comesUp_step_iff (f := f) hmax hused hg
          have hlt := hg.1
          have hrest := ih (by simpa using hmax)
          intro x hx p hp
          rw [visited_cons, List.mem_cons] at hx
          rcases hx with rfl | hx
          · exact .inl hp
          · rcases hrest x hx p hp with hold | ⟨f, hpf, hf⟩
            · rcases List.mem_cons.mp hold with rfl | hold
              · right
                exact ⟨g, by rw [w32_of_lt (by omega), Nat.mul_comm], (hiff g).mpr (.inl rfl)⟩
              · exact .inl hold
            · exact .inr ⟨f, hpf, (hiff f).mpr (.inr hf)⟩

/-- And some run hands it out. -/
theorem run_of_comesUp {u : FrameSys} {f : ℕ} (h : ComesUp u.st f) (hmax : u.st.blocksMax < 1048576) :
    ∃ tr t, Run AllocStep u tr t ∧ 4096 * f ∈ t.live := by
  obtain ⟨n, hn⟩ : ∃ n, (clearBelow u.st f).card = n := ⟨_, rfl⟩
  -- by induction on the number of clear frames below `f`, of which a call takes the lowest one
  induction n using Nat.strong_induction_on generalizing u with
  | h n ih =>
      have hcounter := h.counter
      have hused : u.st.blocksUsed < u.st.blocksMax := by omega
      cases hfind : findFreeBlock u.st with
      | none =>
          have hset := (findFreeBlock_eq_none_iff u.st).mp hfind f h.lt
          rw [h.clear] at hset
          cases hset
      | some g =>
          have hg : Lowest u.st g := (findFreeBlock_eq_some_iff u.st g).mp hfind
          have hlt := hg.1
          have hroom : ¬ u.st.blocksMax ≤ u.st.blocksUsed := by omega
          have hstep : AllocStep u () ⟨(u.st.mmapSet g).addUsed 1, w32 (g * 4096) :: u.live⟩ :=
            .alloc (by simp only [allocBlock, hroom, if_false, hfind])
          rcases (comesUp_step_iff hmax hused hg).mp h with rfl | hrest
          · refine ⟨_, _, .single hstep, ?_⟩
            rw [w32_of_lt (by omega), Nat.mul_comm]
            exact List.mem_cons_self
          · have hmem : g ∈ clearBelow u.st f := by
              have hne := ((mmapTest_allocated f).mp hrest.clear).1
              have hle := lowest_le hg h.clear
              exact Finset.mem_filter.mpr ⟨Finset.mem_range.mpr (by omega), hg.2.1⟩
            have hcard : (clearBelow ((u.st.mmapSet g).addUsed 1) f).card < n := by
              rw [clearBelow_allocated, ← hn]
              exact Finset.card_erase_lt_of_mem hmem
            obtain ⟨tr, t, hrun, ht⟩ := ih _ hcard
              (u := ⟨(u.st.mmapSet g).addUsed 1, w32 (g * 4096) :: u.live⟩) hrest
              (by simpa using hmax) rfl
            exact ⟨_, t, .cons hstep hrun, ht⟩

/-- Runs of `alloc_block` hand out free frames only exactly if all frames that come up are good. -/
theorem handedOutFree_iff {k : Machine} {s : FrameState} (h : Marked k s)
    (hmax : s.blocksMax < 1048576) :
    (∀ tr t, Run AllocStep ⟨s, []⟩ tr t → ∀ x ∈ visited tr t, HandedOutFree k x) ↔
      ∀ f, ComesUp s f → FrameGood k f := by
  constructor
  · intro hall f hf
    obtain ⟨tr, t, hrun, ht⟩ := run_of_comesUp (u := ⟨s, []⟩) hf hmax
    have hfree := (hall tr t hrun t (List.mem_append_right _ (List.mem_singleton_self t)) _ ht).2
    rw [Nat.mul_div_cancel_left f (by decide)] at hfree
    exact (h.free_iff hf.clear).mp hfree
  · intro hgood tr t hrun x hx p hp
    rcases comesUp_of_run hrun hmax x hx p hp with hnil | ⟨f, rfl, hf⟩
    · exact absurd hnil List.not_mem_nil
    · rw [Nat.mul_div_cancel_left f (by decide)]
      exact ⟨rfl, (h.free_iff hf.clear).mpr (hgood f hf)⟩

/-! ### The frames after the setup -/

/-- The machine that `kmain` starts on. -/
def bootMachine (mbt : MultibootInfo) (initrdLocation initrdEnd : ℕ) (s : Boot)
    (entries : List MmapEntry) : Machine where
  entries := entries
  kernelSize := s.kernelSize
  initrdLocation := initrdLocation
  initrdEnd := initrdEnd
  taken := bootTaken mbt initrdLocation initrdEnd s entries

theorem memInitRegion_mmapTest {base size g : ℕ} {s : FrameState} :
    (memInitRegion base size s).mmapTest g = true ↔
      g = 0 ∨ (s.mmapTest g = true ∧ ¬ (base / 4096 ≤ g ∧ g < base / 4096 + size / 4096)) := by
  rw [memInitRegion, mmapTest_mmapSet, initFrames_mmapTest]

theorem memDeinitRegion_mmapTest {base size g : ℕ} {s : FrameState} :
    (memDeinitRegion base size s).mmapTest g = true ↔
      s.mmapTest g = true ∨ (base / 4096 ≤ g ∧ g < base / 4096 + size / 4096) := by
  rw [memDeinitRegion, deinitFrames_mmapTest]

theorem memDeinitRegion_blocksMax (base size : ℕ) (s : FrameState) :
    (memDeinitRegion base size s).blocksMax = s.blocksMax := by
  rw [memDeinitRegion, deinitFrames_blocksMax]

/-- The frames that `kmainSetup` leaves. -/
theorem kmainSetup_frames (loc stop : ℕ) {fuel : ℕ} {mbt : MultibootInfo} {s : Boot}
    {entries : List MmapEntry}
    (hmap : readMmap s.heap.mem (w32 (mbt.mmapAddr + mbt.mmapLength)) fuel mbt.mmapAddr =
      some entries) :
    ∃ k, kmainSetup fuel mbt loc stop s = some k ∧
      k.frames = memDeinitRegion kEntry (s.kernelSize / 4) (memDeinitRegion loc (sub32 stop loc)
        (entries.foldl framesEntry (startFrames mbt (kmainStart loc stop s).2))) := by
  have hheap : (kmainStart loc stop s).2.heap = s.heap := by rw [kmainStart_eq]
  refine ⟨_, by rw [kmainSetup, pmemInit, hheap, hmap, Option.map_some, Option.map_some], ?_⟩
  simp only [foldl_pmemEntry_frames]
  rfl

/-- Whether the bit of a frame is clear after an entry of the map. -/
def MmapEntry.leavesClear (f : ℕ) (clear : Bool) (e : MmapEntry) : Bool :=
  if e.Usable then decide (f ≠ 0) && (clear || decide (e.HasFrame f))
  else clear && !decide (e.HasFrame f)

/-- Whether the setup leaves the bit of a frame clear: `memset` clears the upper half of every byte,
the entries of the map come one after the other, and then the ramdisk and the kernel. -/
def Machine.leavesClear (k : Machine) (f : ℕ) : Bool :=
  k.entries.foldl (MmapEntry.leavesClear f) (decide (4 ≤ f % 8)) &&
    !decide (k.initrdLocation / 4096 ≤ f ∧
      f < k.initrdLocation / 4096 + (k.initrdEnd - k.initrdLocation) / 4096) &&
    !decide (kEntry / 4096 ≤ f ∧ f < kEntry / 4096 + k.kernelSize / 4 / 4096)

theorem Machine.leavesClear_iff (k : Machine) (f : ℕ) : k.leavesClear f = true ↔
    k.entries.foldl (MmapEntry.leavesClear f) (decide (4 ≤ f % 8)) = true ∧
      ¬ (k.initrdLocation / 4096 ≤ f ∧
        f < k.initrdLocation / 4096 + (k.initrdEnd - k.initrdLocation) / 4096) ∧
      ¬ (kEntry / 4096 ≤ f ∧ f < kEntry / 4096 + k.kernelSize / 4 / 4096) := by
  simp only [Machine.leavesClear, Bool.and_eq_true, Bool.not_eq_true', decide_eq_false_iff_not,
    and_assoc]

theorem framesEntry_clear (s : FrameState) (e : MmapEntry) (f : ℕ) :
    (!(framesEntry s e).mmapTest f) = MmapEntry.leavesClear f (!s.mmapTest f) e := by
  have hhas : e.baseAddrLow / 4096 ≤ f ∧ f < e.baseAddrLow / 4096 + e.lengthLow / 4096 ↔
      e.HasFrame f := Iff.rfl
  rw [Bool.eq_iff_iff, Bool.not_eq_true', ← Bool.not_eq_true, framesEntry, MmapEntry.leavesClear]
  split
  · rw [memInitRegion_mmapTest, hhas]
    simp only [Bool.and_eq_true, Bool.or_eq_true, decide_eq_true_eq, Bool.not_eq_true',
      ← Bool.not_eq_true]
    tauto
  · rw [memDeinitRegion_mmapTest, hhas]
    simp only [Bool.and_eq_true, decide_eq_true_eq, Bool.not_eq_true', ← Bool.not_eq_true]
    tauto

theorem foldl_framesEntry_clear (entries : List MmapEntry) (s : FrameState) (f : ℕ) :
    (!(entries.foldl framesEntry s).mmapTest f) =
      entries.foldl (MmapEntry.leavesClear f) (!s.mmapTest f) := by
  induction entries generalizing s with
  | nil => rfl
  | cons e entries ih => rw [List.foldl_cons, ih, framesEntry_clear, List.foldl_cons]

section Setup

variable {loc stop : ℕ} {mbt : MultibootInfo} {s k : Boot} {entries : List MmapEntry}
  (hframes : k.frames = memDeinitRegion kEntry (s.kernelSize / 4) (memDeinitRegion loc
    (sub32 stop loc) (entries.foldl framesEntry (startFrames mbt (kmainStart loc stop s).2))))
  (hle : loc ≤ stop) (hstop : stop < 4294967296)

include hframes in
theorem setup_blocksMax : k.frames.blocksMax = w32 (mbt.memUpper * 1024) / 4096 := by
  have hlt := startFrames_lt mbt (kmainStart loc stop s).2
  obtain ⟨-, hmax⟩ := foldl_framesEntry_blocks entries
    (show (startFrames mbt (kmainStart loc stop s).2).blocksUsed < 4294967296 from
      hlt.trans (by decide))
  rw [hframes, memDeinitRegion_blocksMax, memDeinitRegion_blocksMax, hmax, startFrames_blocksMax]

include hframes hle hstop

/-- The setup marks the ramdisk and the first quarter of the kernel, in whole frames. -/
theorem setup_marked : Marked (bootMachine mbt loc stop s entries) k.frames := by
  rw [sub32_of_le hle hstop] at hframes
  refine ⟨fun f h1 h2 => ?_, fun f h1 h2 => ?_⟩
  · simp only [hframes, memDeinitRegion_mmapTest]
    exact .inl (.inr ⟨h1, h2⟩)
  · simp only [hframes, memDeinitRegion_mmapTest]
    exact .inr ⟨h1, h2⟩

/-- The bits that the search looks at are as the map, the kernel and the ramdisk say. -/
theorem setup_clear {f : ℕ} (hf : f < 32 * (k.frames.blocksMax / 32)) :
    k.frames.mmapTest f = false ↔ (bootMachine mbt loc stop s entries).leavesClear f = true := by
  rw [setup_blocksMax hframes] at hf
  have hmemset : (!(startFrames mbt (kmainStart loc stop s).2).mmapTest f) = decide (4 ≤ f % 8) := by
    have hbit : (startFrames mbt (kmainStart loc stop s).2).mmapTest f = decide (f % 8 < 4) :=
      bitTest_memsetMap _ (by omega)
    rw [hbit, ← decide_not, decide_eq_decide]
    omega
  have hfold := foldl_framesEntry_clear entries (startFrames mbt (kmainStart loc stop s).2) f
  rw [hmemset] at hfold
  rw [sub32_of_le hle hstop] at hframes
  rw [Machine.leavesClear_iff, ← Bool.not_eq_true, hframes, memDeinitRegion_mmapTest,
    memDeinitRegion_mmapTest, not_or, not_or, Bool.not_eq_true, ← Bool.not_eq_true', and_assoc]
  exact and_congr_left' (by rw [hfold]; rfl)

end Setup

/-- Calls of `alloc_block` get to the frame: the setup leaves its bit clear, and the counter leaves
room for the clear frames below it and for the frame itself. -/
structure Machine.Offers (k : Machine) (blocksMax blocksUsed f : ℕ) : Prop where
  lt : f < 32 * (blocksMax / 32)
  clear : k.leavesClear f = true
  counter : blocksUsed + ((Finset.range f).filter (k.leavesClear · = true)).card < blocksMax

theorem readMmap_round : readMmap smallBoot.heap.mem
    (w32 (roundInfo.mmapAddr + roundInfo.mmapLength)) 4 roundInfo.mmapAddr = some smallMap :=
  readMmap_small

/-- The frames there, without the first of them. -/
theorem roundFrames_mmapTest {st : FrameState} {g : ℕ} :
    (memDeinitRegion kEntry (smallBoot.kernelSize / 4) (memDeinitRegion 4194304
      (sub32 4199172 4194304) (smallMap.foldl framesEntry st))).mmapTest g = true ↔
      g < 260 ∨ g = 1024 ∨ (32768 ≤ g ∧ st.mmapTest g = true) := by
  have hsub : sub32 4199172 4194304 = 4868 := sub32_of_le (by decide) (by decide)
  simp only [smallMap, List.foldl_cons, List.foldl_nil, framesEntry, MmapEntry.Usable, hsub]
  norm_num
  simp only [memDeinitRegion_mmapTest, memInitRegion_mmapTest, kEntry, smallBoot]
  by_cases h : st.mmapTest g = true
  · simp only [h, true_or, true_and, and_true]
    omega
  · simp only [Bool.not_eq_true] at h
    simp only [h, Bool.false_eq_true, false_or, and_false, or_false]
    omega

/-- Few bits are set if all from `n` on are clear. -/
theorem setBits_le_of_clear {map : Bitmap} {n m : ℕ}
    (h : ∀ b, n ≤ b → b < m → bitTest map b = false) : setBits map m ≤ n := by
  have hsub : (Finset.range m).filter (bitTest map ·) ⊆ Finset.range n := by
    intro b hb
    obtain ⟨hb, hset⟩ := Finset.mem_filter.mp hb
    rw [Finset.mem_range] at hb ⊢
    by_contra hle
    rw [h b (by omega) hb] at hset
    cases hset
  exact (Finset.card_le_card hsub).trans_eq (Finset.card_range n)

/-- There is room in these frames by the counter. -/
theorem roundFrames_used : ∃ k, kmainSetup 4 roundInfo 4194304 4199172 smallBoot = some k ∧
    k.frames.blocksMax = 32768 ∧ k.frames.blocksUsed < 32768 ∧
    ∀ g < 32768, k.frames.mmapTest g = true ↔ g < 260 ∨ g = 1024 := by
  obtain ⟨k, hk, hframes⟩ := kmainSetup_frames 4194304 4199172 readMmap_round
  obtain ⟨st, hst⟩ : ∃ st, st = startFrames roundInfo (kmainStart 4194304 4199172 smallBoot).2 :=
    ⟨_, rfl⟩
  rw [← hst] at hframes
  have hmax : st.blocksMax = 32768 := by
    rw [hst, startFrames_blocksMax]
    decide +kernel
  have hused : st.blocksUsed = 32768 := hmax ▸ hst ▸ rfl
  have htest : ∀ g < 32768, k.frames.mmapTest g = true ↔ g < 260 ∨ g = 1024 := by
    intro g hg
    rw [hframes, roundFrames_mmapTest]
    omega
  obtain ⟨F, hF⟩ : ∃ F, F = smallMap.foldl framesEntry st := ⟨_, rfl⟩
  obtain ⟨hFused, hFmax⟩ := foldl_framesEntry_blocks smallMap (s := st) (by omega)
  rw [← hF] at hframes hFused hFmax
  rw [hmax] at hFmax
  have hkmax : k.frames.blocksMax = 32768 := by
    rw [hframes, memDeinitRegion_blocksMax, memDeinitRegion_blocksMax, hFmax]
  have hkused : k.frames.blocksUsed < 4294967296 := by
    rw [hframes]
    exact deinitFrames_blocksUsed _ _ (deinitFrames_blocksUsed _ _ hFused)
  -- the frames of `setBits_memsetMap`, less the marks of frame 0
  have hstart : excess st = 16384 := by
    have hlen : bitmapBytes roundInfo = 4096 := by
      rw [bitmapBytes]
      decide +kernel
    have hmemset : st.memoryMap = memsetMap (kmainStart 4194304 4199172 smallBoot).2.frames.memoryMap
        (bitmapBytes roundInfo) := by
      rw [hst]
      rfl
    have hbits : setBits st.memoryMap 32768 = 16384 := by
      rw [hmemset, hlen]
      exact setBits_memsetMap _ 4096
    rw [excess, hmax, hused, hbits]
    norm_num
  obtain ⟨u, hu, hFexcess⟩ : ∃ u ≤ 3, excess F = 16384 - (u : ℕ) := by
    have hin : ∀ e ∈ smallMap, e.Managed st.blocksMax := by
      simp only [smallMap, List.forall_mem_cons, hmax, MmapEntry.Managed]
      decide
    have hle : ∀ zero, uncounted zero smallMap ≤ 3 := by decide
    exact ⟨_, hle _, by rw [hF, excess_foldl_framesEntry _ _ (by omega) hin, hstart]⟩
  have hexcess : excess k.frames = 16384 - (u : ℕ) := by
    have hin : ∀ f, 4194304 / 4096 ≤ f → f < 4194304 / 4096 + sub32 4199172 4194304 / 4096 →
        strayFrame F f = false := by
      intro f _ hf
      have : ¬ F.blocksMax ≤ f := by
        rw [sub32_of_le (by decide) (by decide)] at hf
        omega
      simp [strayFrame, this]
    have hin' : ∀ f, kEntry / 4096 ≤ f → f < kEntry / 4096 + smallBoot.kernelSize / 4 / 4096 →
        strayFrame (memDeinitRegion 4194304 (sub32 4199172 4194304) F) f = false := by
      intro f _ hf
      have : ¬ (memDeinitRegion 4194304 (sub32 4199172 4194304) F).blocksMax ≤ f := by
        rw [memDeinitRegion_blocksMax, hFmax]
        simp only [kEntry, smallBoot] at hf
        omega
      simp [strayFrame, this]
    rw [← hFexcess, hframes, (excess_memDeinitRegion (by decide)).mpr hin',
      (excess_memDeinitRegion (sub32_lt _ _)).mpr hin]
  have hbits : setBits k.frames.memoryMap 32768 ≤ 1025 := by
    refine setBits_le_of_clear fun b h1 h2 => ?_
    have h := htest b h2
    rw [mmapTest] at h
    rw [← Bool.not_eq_true, h]
    omega
  have hcount : k.frames.blocksUsed = setBits k.frames.memoryMap 32768 + (16384 - u) := by
    rw [← cast_inj hkused (by omega), Nat.cast_add, Nat.cast_sub (by omega)]
    rw [excess, hkmax] at hexcess
    push_cast
    linear_combination hexcess
  exact ⟨k, hk, hkmax, by omega, htest⟩

end Owmice.Frames
