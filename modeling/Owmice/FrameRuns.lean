import Owmice.FrameCounts

/-! # Runs of frames (`alloc_blocks` in `mem/mem.h`)

`mmap_first_free_s` looks for a clear bit and then for `size` clear bits behind it.  It does not
look behind the bit: bit `j` of word `i` has the window of `size + 1` bits from
`i * 32 + (1 << j)` on, and clear bits are counted there whether or not they are next to each
other.  The loop over the words runs to `blocks_max`, which is the number of frames.

* `searchM_val`, `forall_log_searchM`: what a search finds, and which words it reads;
* `countFree_iff`, `forall_log_countFreeM`: when a window counts, and which words are read for it;
* `allocBlocks_iff`: the calls that return a run of clear frames, or die because there is none. -/

namespace Owmice.Frames

open FrameState Logged

/-! ### The allocator with the words that it reads -/

/-- `mmap_test`. -/
def mmapTestM (s : FrameState) (bit : ℕ) : Logged ℕ Bool := do
  access (bit / 32)
  pure (s.mmapTest bit)

/-- `mmap_set`, which reads the word that it changes. -/
def mmapSetM (s : FrameState) (bit : ℕ) : Logged ℕ FrameState := do
  access (bit / 32)
  pure (s.mmapSet bit)

/-- The two outer loops that `find_free_block` and `mmap_first_free_s` share: the first clear bit
that passes the test. -/
def searchM (s : FrameState) (words : ℕ) (test : ℕ → ℕ → Logged ℕ Bool) : Logged ℕ (Option ℕ) :=
  (List.range words).findSomeM? fun i => do
    access i
    if s.memoryMap i ≠ 0xffffffff#32 then
      (List.range 32).findSomeM? fun j => do
        access i
        if s.memoryMap i &&& (1#32 <<< j) == 0#32 then do
          let found ← test i j
          pure (if found then some (i * 4 * 8 + j) else none)
        else pure none
    else pure none

/-- `find_free_block`. -/
def findFreeBlockM (s : FrameState) : Logged ℕ (Option ℕ) :=
  searchM s (s.blocksMax / 32) fun _ _ => pure true

/-- The innermost loop of `mmap_first_free_s`. -/
def countFreeM (s : FrameState) (startingBit size : ℕ) : ℕ → ℕ → ℕ → Logged ℕ Bool
  | 0, _, _ => pure false
  | n + 1, count, free => do
      let used ← mmapTestM s (w32 (startingBit + count))
      let free := if used then free else free + 1
      if free = size then pure true else countFreeM s startingBit size n (count + 1) free

/-- `mmap_first_free_s`. -/
def mmapFirstFreeSM (s : FrameState) (size : ℕ) : Logged ℕ (Option ℕ) :=
  if size = 0 then pure none
  else if size = 1 then findFreeBlockM s
  else searchM s s.blocksMax fun i j => countFreeM s (w32 (i * 32 + 2 ^ j)) size (size + 1) 0 0

/-- `mmap_set` for `n` frames. -/
def setRunM (s : FrameState) (frame n : ℕ) : Logged ℕ FrameState :=
  (List.range n).foldlM (fun s i => mmapSetM s (w32 (frame + i))) s

/-- `alloc_blocks`. -/
def allocBlocksM (s : FrameState) (size : ℕ) : Logged ℕ Outcome :=
  if sub32 s.blocksUsed s.blocksMax ≤ size then pure (.dies statusNomem s)
  else do
    let found ← mmapFirstFreeSM s size
    match found with
    | none => pure (.dies statusNomem s)
    | some frame => do
        let s ← setRunM s frame size
        pure (.returns (w32 (frame * 4096)) (s.addUsed size))

/-! ### The search over words is a search over frames -/

section Search

variable {s : FrameState} {words : ℕ} {test : ℕ → ℕ → Logged ℕ Bool}

/-- The frame is clear and passes the test of its bit. -/
def hit (s : FrameState) (test : ℕ → ℕ → Logged ℕ Bool) (g : ℕ) : Bool :=
  !s.mmapTest g && (test (g / 32) (g % 32)).val

theorem findSome?_congr {α β : Type} {f g : α → Option β} {l : List α}
    (h : ∀ a ∈ l, f a = g a) : l.findSome? f = l.findSome? g := by
  induction l with
  | nil => rfl
  | cons a l ih =>
      obtain ⟨ha, hl⟩ := List.forall_mem_cons.mp h
      rw [List.findSome?_cons, List.findSome?_cons, ha, ih hl]

/-- The body of the inner loop. -/
def bitM (s : FrameState) (test : ℕ → ℕ → Logged ℕ Bool) (i j : ℕ) : Logged ℕ (Option ℕ) := do
  access i
  if s.memoryMap i &&& (1#32 <<< j) == 0#32 then do
    let found ← test i j
    pure (if found then some (i * 4 * 8 + j) else none)
  else pure none

/-- The body of the outer loop. -/
def wordM (s : FrameState) (test : ℕ → ℕ → Logged ℕ Bool) (i : ℕ) : Logged ℕ (Option ℕ) := do
  access i
  if s.memoryMap i ≠ 0xffffffff#32 then (List.range 32).findSomeM? (bitM s test i) else pure none

theorem searchM_eq : searchM s words test = (List.range words).findSomeM? (wordM s test) := rfl

theorem bitM_val {i j : ℕ} (hj : j < 32) :
    (bitM s test i j).val = if hit s test (i * 32 + j) then some (i * 32 + j) else none := by
  have hdiv : (i * 32 + j) / 32 = i := by omega
  have hmod : (i * 32 + j) % 32 = j := by omega
  unfold bitM hit
  rw [bind_val, hdiv, hmod, word_test s i hj]
  cases s.mmapTest (i * 32 + j) with
  | true => rfl
  | false =>
      simp only [Bool.not_false, if_true, bind_val, pure_val, Bool.true_and]
      rw [show i * 4 * 8 = i * 32 by omega]

theorem wordM_val (i : ℕ) :
    (wordM s test i).val = ((List.range 32).map (i * 32 + ·)).find? (hit s test) := by
  rw [List.find?_eq_findSome?_guard, List.findSome?_map]
  unfold wordM
  rw [bind_val]
  by_cases h : s.memoryMap i = 0xffffffff#32
  · -- no bit of the word is clear
    have hset := (word_eq_ones_iff s i).mp h
    rw [if_neg (not_not.mpr h), pure_val, eq_comm, List.findSome?_eq_none_iff]
    intro j hj
    simp [hit, hset j (List.mem_range.mp hj)]
  · rw [if_pos h, findSomeM?_val]
    apply findSome?_congr
    intro j hj
    rw [bitM_val (List.mem_range.mp hj), Function.comp_apply, Option.guard]

theorem searchM_val :
    (searchM s words test).val = (List.range (words * 32)).find? (hit s test) := by
  rw [searchM_eq, findSomeM?_val]
  induction words with
  | zero => rfl
  | succ n ih =>
      rw [List.range_succ, List.findSome?_append, ih, Nat.succ_mul, List.range_add,
        List.find?_append, List.findSome?_singleton, wordM_val]

theorem wordM_val_eq_none_iff {i : ℕ} :
    (wordM s test i).val = none ↔ ∀ j < 32, hit s test (i * 32 + j) = false := by
  rw [wordM_val, List.find?_eq_none]
  simp

/-- What the accesses of a search have in common: it comes to frame `g` when no frame before
passes. -/
theorem forall_log_searchM {P : ℕ → Prop} : (∀ k ∈ (searchM s words test).log, P k) ↔
    ∀ g < words * 32, (∀ z < g, hit s test z = false) →
      P (g / 32) ∧ (s.mmapTest g = false → ∀ k ∈ (test (g / 32) (g % 32)).log, P k) := by
  have hbit : ∀ {i j : ℕ}, j < 32 → ((∀ k ∈ (bitM s test i j).log, P k) ↔
      P i ∧ (s.mmapTest (i * 32 + j) = false → ∀ k ∈ (test i j).log, P k)) := by
    intro i j hj
    unfold bitM
    rw [bind_log, word_test s i hj]
    cases s.mmapTest (i * 32 + j) with
    | true => simp
    | false => simp
  have hword : ∀ i, ((∀ k ∈ (wordM s test i).log, P k) ↔
      P i ∧ ∀ j < 32, (∀ b < j, hit s test (i * 32 + b) = false) →
        s.mmapTest (i * 32 + j) = false → ∀ k ∈ (test i j).log, P k) := by
    intro i
    unfold wordM
    rw [bind_log]
    by_cases h : s.memoryMap i = 0xffffffff#32
    · have hset := (word_eq_ones_iff s i).mp h
      rw [if_neg (not_not.mpr h)]
      simp only [access_log, pure_log, List.append_nil, List.mem_singleton, forall_eq]
      refine (and_iff_left fun j hj _ hclear => ?_).symm
      rw [hset j hj] at hclear
      cases hclear
    · have hnone : ∀ b < 32, ((bitM s test i b).val = none ↔ hit s test (i * 32 + b) = false) := by
        intro b hb
        rw [bitM_val hb]
        cases hit s test (i * 32 + b) with
        | true => simp
        | false => simp
      rw [if_pos h]
      simp only [access_log, List.singleton_append, List.forall_mem_cons, forall_log_findSomeM?]
      apply and_congr_right
      intro hP
      refine forall₂_congr fun j hj => ?_
      rw [hbit hj, and_iff_right hP]
      exact imp_congr (forall₂_congr fun b hb => hnone b (hb.trans hj)) Iff.rfl
  rw [searchM_eq, forall_log_findSomeM?]
  simp only [wordM_val_eq_none_iff, hword]
  constructor
  · intro h g hg hbefore
    have hi := h (g / 32) (by omega) fun b hb j hj => hbefore _ (by omega)
    refine ⟨hi.1, fun hclear => ?_⟩
    have hj := hi.2 (g % 32) (Nat.mod_lt _ (by decide)) fun b hb => hbefore _ (by omega)
    rw [show g / 32 * 32 + g % 32 = g by omega] at hj
    exact hj hclear
  · intro h i hi hbefore
    have hearlier : ∀ z < i * 32, hit s test z = false := by
      intro z hz
      have := hbefore (z / 32) (by omega) (z % 32) (Nat.mod_lt _ (by decide))
      rwa [show z / 32 * 32 + z % 32 = z by omega] at this
    refine ⟨?_, fun j hj hbits hclear => ?_⟩
    · have := (h (i * 32) (by omega) hearlier).1
      rwa [show i * 32 / 32 = i by omega] at this
    · have := (h (i * 32 + j) (by omega) ?_).2 hclear
      · rwa [show (i * 32 + j) / 32 = i by omega, show (i * 32 + j) % 32 = j by omega] at this
      · intro z hz
        by_cases hlt : z < i * 32
        · exact hearlier z hlt
        · have := hbits (z - i * 32) (by omega)
          rwa [show i * 32 + (z - i * 32) = z by omega] at this

end Search

/-! ### Windows -/

section Window

variable {s : FrameState} {b size : ℕ}

/-- The number of clear bits among `n` from `b` on. -/
def clearIn (s : FrameState) (b n : ℕ) : ℕ :=
  (List.range' b n).countP fun k => !s.mmapTest (w32 k)

theorem clearIn_succ (s : FrameState) (b n : ℕ) :
    clearIn s b (n + 1) = (if s.mmapTest (w32 b) then 0 else 1) + clearIn s (b + 1) n := by
  rw [clearIn, List.range'_succ, List.countP_cons, Nat.add_comm, clearIn]
  cases s.mmapTest (w32 b) with
  | true => rfl
  | false => rfl

theorem countFreeM_val (n count free : ℕ) :
    (countFreeM s b size n count free).val = countFree s b size n count free := by
  induction n generalizing count free with
  | zero => rfl
  | succ n ih =>
      unfold countFreeM countFree mmapTestM
      simp only [bind_val, pure_val]
      split
      · split
        · rfl
        · exact ih _ _
      · split
        · rfl
        · exact ih _ _

/-- The count reaches `size` exactly if enough of the bits are clear. -/
theorem countFree_iff {n count free : ℕ} (hfree : free < size) :
    countFree s b size n count free = true ↔ size ≤ free + clearIn s (b + count) n := by
  induction n generalizing count free with
  | zero =>
      have hnone : clearIn s (b + count) 0 = 0 := rfl
      rw [countFree, hnone]
      simp only [Bool.false_eq_true, false_iff]
      omega
  | succ n ih =>
      rw [clearIn_succ, countFree]
      cases hbit : s.mmapTest (w32 (b + count)) with
      | true =>
          simp only [if_true]
          rw [if_neg (by omega), ih hfree, Nat.zero_add, Nat.add_assoc]
      | false =>
          simp only [Bool.false_eq_true, if_false]
          by_cases hdone : free + 1 = size
          · rw [if_pos hdone]
            simp only [true_iff]
            omega
          · rw [if_neg hdone, ih (by omega), Nat.add_assoc b, Nat.add_assoc free]

/-- One round of the count. -/
theorem forall_log_countFreeM_succ {P : ℕ → Prop} (n count free : ℕ) :
    (∀ k ∈ (countFreeM s b size (n + 1) count free).log, P k) ↔
      P (w32 (b + count) / 32) ∧
        ((if s.mmapTest (w32 (b + count)) then free else free + 1) ≠ size →
          ∀ k ∈ (countFreeM s b size n (count + 1)
            (if s.mmapTest (w32 (b + count)) then free else free + 1)).log, P k) := by
  rw [countFreeM, mmapTestM]
  simp only [bind_log, bind_val, pure_val, access_log, pure_log, List.append_nil,
    List.singleton_append, List.forall_mem_cons]
  apply and_congr_right
  intro _
  generalize (if s.mmapTest (w32 (b + count)) then free else free + 1) = free'
  by_cases hdone : free' = size
  · simp [hdone]
  · rw [if_neg hdone]
    exact ⟨fun h _ => h, fun h => h hdone⟩

variable {w : ℕ}

theorem word_lt_iff {k : ℕ} (hw : 32 * w < 4294967296) (hk : k ≤ 32 * w) :
    w32 k / 32 < w ↔ k + 1 ≤ 32 * w := by
  rw [w32_of_lt (by omega)]
  omega

/-- A count that can end with its last round only reads all its bits. -/
theorem countFreeM_reads_all (hw : 32 * w < 4294967296) : ∀ {n count free : ℕ}, free < size →
    n + free ≤ size → b + count ≤ 32 * w →
      ((∀ k ∈ (countFreeM s b size n count free).log, k < w) ↔ b + count + n ≤ 32 * w)
  | 0, count, free, _, _, hb => by
      simp only [countFreeM, pure_log, List.not_mem_nil, false_implies, implies_true, true_iff]
      exact hb
  | n + 1, count, free, hfree, hn, hb => by
      rw [forall_log_countFreeM_succ, word_lt_iff hw hb]
      obtain ⟨free', hfree'⟩ : ∃ free', free' =
        if s.mmapTest (w32 (b + count)) then free else free + 1 := ⟨_, rfl⟩
      have hle : free' ≤ free + 1 := by
        rw [hfree']
        split
        · omega
        · exact le_rfl
      rw [← hfree']
      constructor
      · rintro ⟨hfirst, hrest⟩
        by_cases hdone : free' = size
        · omega
        · have := (countFreeM_reads_all hw (by omega) (by omega) (by omega)).mp (hrest hdone)
          omega
      · intro h
        refine ⟨by omega, fun hne => ?_⟩
        exact (countFreeM_reads_all hw (by omega) (by omega) (by omega)).mpr (by omega)

/-- The bits that a whole count reads: the last one only if one before it is set. -/
theorem countFreeM_reads (hw : 32 * w < 4294967296) : ∀ {m count free : ℕ}, m + free = size →
    0 < m → b + count ≤ 32 * w →
      ((∀ k ∈ (countFreeM s b size (m + 1) count free).log, k < w) ↔
        b + count + m ≤ 32 * w ∧
          ((∀ k < m, s.mmapTest (w32 (b + count + k)) = false) ∨ b + count + m < 32 * w))
  | m + 1, count, free, hm, _, hb => by
      rw [forall_log_countFreeM_succ, word_lt_iff hw hb]
      cases hbit : s.mmapTest (w32 (b + count)) with
      | true =>
          have hset : ¬ ∀ k < m + 1, s.mmapTest (w32 (b + count + k)) = false := by
            intro h
            have := h 0 (by omega)
            rw [Nat.add_zero, hbit] at this
            cases this
          simp only [if_true, hset, false_or]
          constructor
          · rintro ⟨hfirst, hrest⟩
            have := (countFreeM_reads_all hw (by omega) (by omega) (by omega)).mp (hrest (by omega))
            omega
          · rintro ⟨-, hlast⟩
            refine ⟨by omega, fun _ => ?_⟩
            exact (countFreeM_reads_all hw (by omega) (by omega) (by omega)).mpr (by omega)
      | false =>
          simp only [Bool.false_eq_true, if_false]
          have hshift : (∀ k < m + 1, s.mmapTest (w32 (b + count + k)) = false) ↔
              ∀ k < m, s.mmapTest (w32 (b + (count + 1) + k)) = false := by
            rw [Nat.forall_lt_succ_left, Nat.add_zero, and_iff_right hbit]
            refine forall₂_congr fun k _ => ?_
            rw [show b + (count + 1) + k = b + count + (k + 1) by omega]
          rw [hshift]
          rcases Nat.eq_zero_or_pos m with rfl | hpos
          · simp
            omega
          · constructor
            · rintro ⟨hfirst, hrest⟩
              obtain ⟨h1, h2⟩ :=
                (countFreeM_reads hw (m := m) (by omega) hpos (by omega)).mp (hrest (by omega))
              exact ⟨by omega, h2.imp id fun h => by omega⟩
            · rintro ⟨h1, h2⟩
              refine ⟨by omega, fun _ => ?_⟩
              exact (countFreeM_reads hw (by omega) hpos (by omega)).mpr
                ⟨by omega, h2.imp id fun h => by omega⟩

end Window

/-! ### The instrumented programs compute the functions -/

section Values

variable (s : FrameState)

/-- One word of `mmap_first_free_s`. -/
theorem findWord_hit (test : ℕ → ℕ → Logged ℕ Bool) (i : ℕ) :
    (if s.memoryMap i ≠ 0xffffffff#32 then
      ((List.range 32).find? fun j =>
        s.memoryMap i &&& (1#32 <<< j) == 0#32 && (test i j).val).map (i * 4 * 8 + ·)
      else none) = ((List.range 32).map (i * 32 + ·)).find? (hit s test) := by
  unfold hit
  rw [← findWord_test s (fun g => (test (g / 32) (g % 32)).val) i]
  congr 2
  apply List.find?_congr
  intro j hj
  have hj' := List.mem_range.mp hj
  rw [show (i * 32 + j) / 32 = i by omega, show (i * 32 + j) % 32 = j by omega]

/-- The test of `mmap_first_free_s`. -/
def windowM (s : FrameState) (size i j : ℕ) : Logged ℕ Bool :=
  countFreeM s (w32 (i * 32 + 2 ^ j)) size (size + 1) 0 0

theorem mmapFirstFreeSM_val (size : ℕ) :
    (mmapFirstFreeSM s size).val = mmapFirstFreeS s size := by
  unfold mmapFirstFreeSM mmapFirstFreeS
  split
  · rfl
  split
  · rw [findFreeBlockM, searchM_val, findFreeBlock_eq]
    refine List.find?_congr fun g _ => ?_
    rw [hit, pure_val, Bool.and_true]
  · rw [searchM_eq, findSomeM?_val]
    apply findSome?_congr
    intro i _
    rw [wordM_val, ← findWord_hit]
    simp only [countFreeM_val]

theorem setRunM_val (frame n : ℕ) : (setRunM s frame n).val = setRun s frame n :=
  foldlM_val _ _ (fun _ _ => rfl) _ _

theorem allocBlocksM_val (size : ℕ) : (allocBlocksM s size).val = allocBlocks s size := by
  unfold allocBlocksM allocBlocks
  split
  · rfl
  · rw [bind_val, mmapFirstFreeSM_val]
    cases mmapFirstFreeS s size with
    | none => rfl
    | some frame =>
        simp only [bind_val, pure_val]
        rw [setRunM_val]

theorem forall_log_setRunM {frame n : ℕ} {P : ℕ → Prop} :
    (∀ k ∈ (setRunM s frame n).log, P k) ↔ ∀ i < n, P (w32 (frame + i) / 32) := by
  have hlog : ∀ k, k ∈ (setRunM s frame n).log ↔
      ∃ i ∈ List.range n, k = w32 (frame + i) / 32 := by
    intro k
    apply mem_log_foldlM
    intro s i k
    rw [mmapSetM, bind_log, access_log, pure_log, List.append_nil, List.mem_singleton]
  simp only [hlog, List.mem_range]
  constructor
  · intro h i hi
    exact h _ ⟨i, hi, rfl⟩
  · rintro h k ⟨i, hi, rfl⟩
    exact h i hi

end Values

/-! ### Runs -/

/-- The `n` frames from `f` on are frames of the bitmap, and clear. -/
def RunAt (s : FrameState) (n f : ℕ) : Prop :=
  f + n ≤ s.blocksMax ∧ ∀ k < n, s.mmapTest (f + k) = false

/-- From `s` to `s'`, the run of `n` frames from `f` on has been marked and counted. -/
structure TakesRun (s s' : FrameState) (n f : ℕ) : Prop where
  run : RunAt s n f
  set : ∀ g, s'.mmapTest g = true ↔ (f ≤ g ∧ g < f + n) ∨ s.mmapTest g = true
  used : s'.blocksUsed = s.blocksUsed + n
  max : s'.blocksMax = s.blocksMax

/-- What `alloc_blocks` promises: it reads complete words of the bitmap only, and it takes a run
or dies because there is none. -/
def Meets (s : FrameState) (n : ℕ) : Prop :=
  (∀ k ∈ (allocBlocksM s n).log, k < s.blocksMax / 32) ∧
    match allocBlocks s n with
    | .dies _ s' => s'.memoryMap = s.memoryMap ∧ ∀ f, ¬ RunAt s n f
    | .returns p s' => ∃ f, p = 4096 * f ∧ TakesRun s s' n f

/-- The first bit of the window that is counted for frame `g`. -/
def windowStart (g : ℕ) : ℕ := g / 32 * 32 + 2 ^ (g % 32)

/-- The bits that are counted for frame `g` lie in complete words: `n` bits if they are all
clear, and otherwise `n + 1`. -/
def Readable (s : FrameState) (n g : ℕ) : Prop :=
  windowStart g + n ≤ 32 * (s.blocksMax / 32) ∧
    ((∀ k < n, s.mmapTest (windowStart g + k) = false) ∨
      windowStart g + n < 32 * (s.blocksMax / 32))

/-- Of the `n + 1` bits that are counted for frame `g`, at least `n` are clear. -/
def Counts (s : FrameState) (n g : ℕ) : Prop := n ≤ clearIn s (windowStart g) (n + 1)

/-- The run of `n` frames from `f` on lies in complete words, and the windows lead to it: that of
`f` counts, those of the clear frames before `f` do not, and all of them can be read. -/
structure Found (s : FrameState) (n f : ℕ) : Prop where
  inside : f + n ≤ 32 * (s.blocksMax / 32)
  clear : ∀ k < n, s.mmapTest (f + k) = false
  readable : ∀ g ≤ f, s.mmapTest g = false → Readable s n g
  counts : Counts s n f
  earlier : ∀ g < f, s.mmapTest g = false → ¬ Counts s n g

/-- The test of `alloc_blocks` before the search: no frame is clear, or the request is so large
that the unsigned difference does not exceed it. -/
def Exhausted (s : FrameState) (n : ℕ) : Prop :=
  (∀ f < s.blocksMax, s.mmapTest f = true) ∨ 4294967296 ≤ n + (s.blocksMax - s.blocksUsed)

section Runs

variable {s s' : FrameState} {n g : ℕ}

theorem windowStart_lt (hg : g < 33554432) : windowStart g < 4294967296 := by
  have hpow : 2 ^ (g % 32) ≤ 2 ^ 31 := Nat.pow_le_pow_right (by decide) (by omega)
  unfold windowStart
  omega

theorem windowM_eq (hg : g < 33554432) :
    windowM s n (g / 32) (g % 32) = countFreeM s (windowStart g) n (n + 1) 0 0 := by
  have hstart := windowStart_lt hg
  unfold windowStart at hstart
  unfold windowM windowStart
  rw [w32_of_lt hstart]

theorem forall_log_windowM (hmax : s.blocksMax < 1048576) (hn : 0 < n) (hg : g < 33554432) :
    (∀ k ∈ (windowM s n (g / 32) (g % 32)).log, k < s.blocksMax / 32) ↔ Readable s n g := by
  have hstart := windowStart_lt hg
  rw [windowM_eq hg]
  unfold Readable
  by_cases hle : windowStart g ≤ 32 * (s.blocksMax / 32)
  · rw [countFreeM_reads (w := s.blocksMax / 32) (by omega) (by omega) hn (by omega), Nat.add_zero]
    apply and_congr_right
    intro hin
    have hbits : (∀ k < n, s.mmapTest (w32 (windowStart g + k)) = false) ↔
        ∀ k < n, s.mmapTest (windowStart g + k) = false := by
      refine forall₂_congr fun k hk => ?_
      rw [w32_of_lt (by omega)]
    rw [hbits]
  · -- the first bit is behind the complete words
    constructor
    · intro h
      rw [forall_log_countFreeM_succ, Nat.add_zero, w32_of_lt hstart] at h
      omega
    · rintro ⟨h, -⟩
      omega

theorem hit_window_iff (hn : 0 < n) (hg : g < 33554432) :
    hit s (windowM s n) g = true ↔ s.mmapTest g = false ∧ Counts s n g := by
  unfold hit
  rw [windowM_eq hg, countFreeM_val, Bool.and_eq_true, Bool.not_eq_true', countFree_iff hn,
    Nat.add_zero, Nat.zero_add, Counts]

theorem RunAt.takesRun {f : ℕ} (h : RunAt s n f) (hmax : s.blocksMax < 1048576)
    (hused : s.blocksUsed ≤ s.blocksMax) :
    TakesRun s ((setRun s f n).addUsed n) n f := by
  have hin := h.1
  refine ⟨h, fun g => ?_, ?_, ?_⟩
  · rw [mmapTest_addUsed, setRun_mmapTest]
    apply or_congr_left
    constructor
    · rintro ⟨i, hi, rfl⟩
      rw [w32_of_lt (by omega)]
      omega
    · rintro ⟨h1, h2⟩
      refine ⟨g - f, by omega, ?_⟩
      rw [w32_of_lt (by omega)]
      omega
  · rw [addUsed, setRun_blocksUsed]
    exact w32_of_lt (by omega)
  · rw [blocksMax_addUsed, setRun_blocksMax]

/-- The guard of `alloc_blocks`, when the counter is right. -/
theorem guard_iff (hmax : s.blocksMax < 1048576)
    (hused : s.blocksUsed = setBits s.memoryMap s.blocksMax) (hn : n < 4294967296) :
    sub32 s.blocksUsed s.blocksMax ≤ n ↔ Exhausted s n := by
  have hle := setBits_le s.memoryMap s.blocksMax
  have hall := setBits_eq_iff s.memoryMap s.blocksMax
  unfold Exhausted
  rw [← hused] at hle hall
  change _ ↔ (∀ f < s.blocksMax, bitTest s.memoryMap f = true) ∨ _
  rw [← hall]
  simp only [sub32, w32]
  omega

/-- Behind the guard there is no run, and none is looked for. -/
theorem meets_of_exhausted (hmax : s.blocksMax < 1048576) (hn : 1 ≤ n)
    (hguard : sub32 s.blocksUsed s.blocksMax ≤ n) (h : Exhausted s n) : Meets s n := by
  unfold Meets allocBlocksM allocBlocks
  rw [if_pos hguard, if_pos hguard]
  refine ⟨by simp, rfl, fun f hrun => ?_⟩
  obtain ⟨hin, hclear⟩ := hrun
  rcases h with h | h
  · have h0 := hclear 0 (by omega)
    rw [h (f + 0) (by omega)] at h0
    cases h0
  · omega

/-- One frame. -/
theorem meets_one_iff (hmax : s.blocksMax < 1048576) (hused : s.blocksUsed ≤ s.blocksMax)
    (hguard : ¬ sub32 s.blocksUsed s.blocksMax ≤ 1) {f₀ : ℕ} (hf₀ : f₀ < s.blocksMax)
    (hclear : s.mmapTest f₀ = false) :
    Meets s 1 ↔ ∃ f < 32 * (s.blocksMax / 32), s.mmapTest f = false := by
  have hfirst : mmapFirstFreeS s 1 = findFreeBlock s := rfl
  have hlog : ∀ k ∈ (mmapFirstFreeSM s 1).log, k < s.blocksMax / 32 := by
    change ∀ k ∈ (findFreeBlockM s).log, _
    unfold findFreeBlockM
    rw [forall_log_searchM]
    intro g hg _
    exact ⟨by omega, by simp⟩
  unfold Meets allocBlocksM allocBlocks
  rw [if_neg hguard, if_neg hguard, bind_log, mmapFirstFreeSM_val, hfirst]
  cases hfind : findFreeBlock s with
  | none =>
      have hnone := (findFreeBlock_eq_none_iff s).mp hfind
      constructor
      · rintro ⟨-, -, hrun⟩
        exact absurd ⟨by omega, by simpa using hclear⟩ (hrun f₀)
      · rintro ⟨f, hf, hf0⟩
        rw [hnone f hf] at hf0
        cases hf0
  | some f =>
      obtain ⟨hf, hf0, -⟩ := (findFreeBlock_eq_some_iff s f).mp hfind
      have hrun : RunAt s 1 f := ⟨by omega, by simpa using hf0⟩
      constructor
      · intro _
        exact ⟨f, hf, hf0⟩
      · intro _
        refine ⟨?_, f, ?_, hrun.takesRun hmax hused⟩
        · simp only [List.mem_append, or_imp, forall_and, bind_log, pure_log, List.append_nil]
          refine ⟨hlog, ?_⟩
          rw [forall_log_setRunM]
          intro i hi
          rw [w32_of_lt (by omega)]
          omega
        · rw [w32_of_lt (by omega), Nat.mul_comm]

/-- The search behind the guard, for two frames or more. -/
theorem mmapFirstFreeSM_eq (hn : 2 ≤ n) :
    mmapFirstFreeSM s n = searchM s s.blocksMax (windowM s n) := by
  unfold mmapFirstFreeSM
  rw [if_neg (by omega), if_neg (by omega)]
  rfl

/-- The words that the search for frame `f` reads. -/
theorem forall_log_search_iff (hmax : s.blocksMax < 1048576) (hn : 2 ≤ n) {f : ℕ}
    (hf : ∀ g < f, hit s (windowM s n) g = false) (hhit : hit s (windowM s n) f = true)
    (hlt : f < s.blocksMax * 32) :
    (∀ k ∈ (mmapFirstFreeSM s n).log, k < s.blocksMax / 32) ↔
      f / 32 < s.blocksMax / 32 ∧ ∀ g ≤ f, s.mmapTest g = false → Readable s n g := by
  rw [mmapFirstFreeSM_eq hn, forall_log_searchM]
  constructor
  · intro h
    refine ⟨(h f hlt hf).1, fun g hg hclear => ?_⟩
    have hread := (h g (by omega) fun z hz => hf z (by omega)).2 hclear
    rwa [forall_log_windowM hmax (by omega) (by omega)] at hread
  · rintro ⟨hin, hread⟩ g hg hbefore
    have hle : g ≤ f := by
      by_contra hgt
      rw [hbefore f (by omega)] at hhit
      cases hhit
    refine ⟨by omega, fun hclear => ?_⟩
    rw [forall_log_windowM hmax (by omega) (by omega)]
    exact hread g hle hclear

/-- Without a hit all words up to `blocks_max` are read. -/
theorem not_forall_log_search (hn : 2 ≤ n) (hpos : 0 < s.blocksMax)
    (hnone : ∀ g < s.blocksMax * 32, hit s (windowM s n) g = false) :
    ¬ ∀ k ∈ (mmapFirstFreeSM s n).log, k < s.blocksMax / 32 := by
  rw [mmapFirstFreeSM_eq hn, forall_log_searchM]
  intro h
  have hlast := (h ((s.blocksMax - 1) * 32) (by omega) fun z hz => hnone z (by omega)).1
  omega

/-- Two frames or more. -/
theorem meets_run_iff (hmax : s.blocksMax < 1048576) (hused : s.blocksUsed ≤ s.blocksMax)
    (hn : 2 ≤ n) (hpos : 0 < s.blocksMax) (hguard : ¬ sub32 s.blocksUsed s.blocksMax ≤ n) :
    Meets s n ↔ ∃ f, Found s n f := by
  have hsearch : mmapFirstFreeS s n =
      (List.range (s.blocksMax * 32)).find? (hit s (windowM s n)) := by
    rw [← mmapFirstFreeSM_val, mmapFirstFreeSM_eq hn, searchM_val]
  have hhit : ∀ g < s.blocksMax * 32,
      (hit s (windowM s n) g = true ↔ s.mmapTest g = false ∧ Counts s n g) :=
    fun g hg => hit_window_iff (by omega) (by omega)
  unfold Meets allocBlocksM allocBlocks
  rw [if_neg hguard, if_neg hguard, bind_log, mmapFirstFreeSM_val]
  simp only [List.mem_append, or_imp, forall_and]
  cases hfind : mmapFirstFreeS s n with
  | none =>
      rw [hsearch, List.find?_range_eq_none] at hfind
      simp only [Bool.not_eq_true'] at hfind
      constructor
      · rintro ⟨⟨hlog, -⟩, -⟩
        exact absurd hlog (not_forall_log_search hn hpos hfind)
      · rintro ⟨f, hf⟩
        have hin := hf.inside
        have hmiss := hfind f (by omega)
        rw [(hhit f (by omega)).mpr ⟨hf.clear 0 (by omega), hf.counts⟩] at hmiss
        cases hmiss
  | some f =>
      rw [hsearch, List.find?_range_eq_some] at hfind
      obtain ⟨hf, hlt, hbefore⟩ := hfind
      simp only [Bool.not_eq_true', List.mem_range] at hbefore hlt
      have hfirst := (hhit f hlt).mp hf
      rw [forall_log_search_iff hmax hn hbefore hf hlt]
      simp only [bind_log, pure_log, List.append_nil]
      rw [forall_log_setRunM]
      constructor
      · rintro ⟨⟨⟨hword, hread⟩, hset⟩, f', haddr, htakes⟩
        -- the frame found is the one of the address
        have hff : f' = f := by
          rw [w32_of_lt (by omega)] at haddr
          omega
        rw [hff] at htakes
        have hrun := htakes.run
        have hin := hrun.1
        have hlast := hset (n - 1) (by omega)
        rw [w32_of_lt (by omega)] at hlast
        refine ⟨f, by omega, hrun.2, hread, hfirst.2, fun g hg hclear hcounts => ?_⟩
        have hmiss := hbefore g hg
        rw [(hhit g (by omega)).mpr ⟨hclear, hcounts⟩] at hmiss
        cases hmiss
      · rintro ⟨f', hf'⟩
        have hin := hf'.inside
        have hff : f' = f := by
          rcases Nat.lt_trichotomy f' f with hlt' | heq | hgt
          · have hmiss := hbefore f' hlt'
            rw [(hhit f' (by omega)).mpr ⟨hf'.clear 0 (by omega), hf'.counts⟩] at hmiss
            cases hmiss
          · exact heq
          · exact absurd hfirst.2 (hf'.earlier f hgt hfirst.1)
        rw [hff] at hf' hin
        have hrun : RunAt s n f := ⟨by omega, hf'.clear⟩
        refine ⟨⟨⟨by omega, hf'.readable⟩, fun i hi => ?_⟩, f, ?_, hrun.takesRun hmax hused⟩
        · rw [w32_of_lt (by omega)]
          omega
        · rw [w32_of_lt (by omega), Nat.mul_comm]

/-- The calls of `alloc_blocks` that keep its promise: there is no clear frame, or the request is
absurdly large, or one frame is wanted and a complete word has a clear one, or more frames are
wanted and the windows lead to a run. -/
theorem allocBlocks_iff (s : FrameState) (hmax : s.blocksMax < 1048576)
    (hused : s.blocksUsed = setBits s.memoryMap s.blocksMax) {n : ℕ} (hn : 1 ≤ n)
    (hn' : n < 4294967296) :
    (allocBlocksM s n).val = allocBlocks s n ∧
      (Meets s n ↔ Exhausted s n ∨
        (n = 1 ∧ ∃ f < 32 * (s.blocksMax / 32), s.mmapTest f = false) ∨
        (2 ≤ n ∧ ∃ f, Found s n f)) := by
  refine ⟨allocBlocksM_val s n, ?_⟩
  have hle : s.blocksUsed ≤ s.blocksMax := hused ▸ setBits_le _ _
  have hguard := guard_iff hmax hused hn'
  by_cases hex : Exhausted s n
  · simp only [hex, true_or, iff_true]
    exact meets_of_exhausted hmax hn (hguard.mpr hex) hex
  simp only [hex, false_or]
  have hopen := mt hguard.mp hex
  -- there is a clear frame, and so a word
  obtain ⟨f₀, hf₀, hclear⟩ : ∃ f₀ < s.blocksMax, s.mmapTest f₀ = false := by
    by_contra hnot
    push Not at hnot
    exact hex (Or.inl fun f hf => by simpa using hnot f hf)
  rcases Nat.lt_or_ge n 2 with hlt | hge
  · obtain rfl : n = 1 := by omega
    rw [meets_one_iff hmax hle hopen hf₀ hclear]
    simp
  · rw [meets_run_iff hmax hle hge (by omega) hopen]
    have hne : ¬ (n = 1 ∧ ∃ f < 32 * (s.blocksMax / 32), s.mmapTest f = false) := by
      rintro ⟨h, -⟩
      omega
    rw [or_iff_right hne, and_iff_right hge]

/-- Two frames, when only frame 0 is in use. -/
theorem allocBlocks_iff_pair : Meets ⟨fun i => if i = 0 then 1 else 0, 1, 64⟩ 2 := by
  have hread : ∀ g ≤ 1, mmapTest ⟨fun i => if i = 0 then 1 else 0, 1, 64⟩ g = false →
      Readable ⟨fun i => if i = 0 then 1 else 0, 1, 64⟩ 2 g := by
    intro g hg hclear
    unfold Readable
    interval_cases g
    · cases hclear
    · decide
  have hfound : Found ⟨fun i => if i = 0 then 1 else 0, 1, 64⟩ 2 1 :=
    ⟨by decide, by decide, hread, by unfold Counts; decide +kernel, by unfold Counts; decide⟩
  exact (allocBlocks_iff _ (by decide) (by decide +kernel) (by decide) (by decide)).2.mpr
    (Or.inr (Or.inr ⟨by decide, 1, hfound⟩))

/-- Frames 0 and 2 are in use: behind the clear frame 1 the bits 2 to 4 are counted, and frame 2
is handed out again. -/
theorem allocBlocks_overlaps : ¬ Meets ⟨fun i => if i = 0 then 5 else 0, 2, 64⟩ 2 := by
  have hfind : mmapFirstFreeS ⟨fun i => if i = 0 then 5 else 0, 2, 64⟩ 2 = some 1 := by
    decide +kernel
  rintro ⟨-, h⟩
  unfold allocBlocks at h
  rw [if_neg (by decide +kernel), hfind] at h
  obtain ⟨f, haddr, htakes⟩ := h
  rw [w32_of_lt (by decide)] at haddr
  obtain rfl : f = 1 := by omega
  have hset := htakes.run.2 1 (by decide)
  revert hset
  decide

end Runs

end Owmice.Frames
