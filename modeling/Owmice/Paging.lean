import Mathlib.Data.Nat.Bitwise
import Owmice.Memory
import Owmice.Runs

/-! # Page tables (`mem/paging.h`)

A page directory of 1024 words leads to page tables of 1024 words; an entry is the address of a
frame and, in its low 12 bits, the flags.  Indices and masks on addresses are written as division
and remainder: `x >> 22` as `x / 4194304`, and `x & ~0xfff` as `x / 4096 * 4096`.

`page_set_frame` clears with the mask `PAGE_FRAME = 0x7FFFF000`, which leaves bit 31 of the old
frame, and `free_page` follows a directory entry that is not present to the table at address 0.

* `setPage_inv`, `addTable_inv`, `delPage_inv`: what the writes do to the map that the tables
  stand for;
* `paging_refines`: a run whose steps avoid the two cases translates every address as the flat
  map does. -/

namespace Owmice.Paging

/-! ### Entries -/

/-- `PAGE_PRESENT` and `PDE_PRESENT`. -/
def pagePresent : ℕ := 1
/-- `PAGE_WRITABLE` and `PDE_WRITABLE`. -/
def pageWritable : ℕ := 2
/-- `PAGE_FRAME` and `PDE_FRAME`. -/
def pageFrame : ℕ := 0x7FFFF000

/-- `~x` on 32 bits. -/
def not32 (x : ℕ) : ℕ := 4294967295 - x

/-- `PAGEDIR_IDX`. -/
def pagedirIdx (x : ℕ) : ℕ := x / 4194304 % 1024
/-- `PAGETABLE_IDX`. -/
def pagetableIdx (x : ℕ) : ℕ := x / 4096 % 1024
/-- `PAGE_ADDR` of an entry. -/
def pageAddr (e : ℕ) : ℕ := e / 4096 * 4096

/-- `page_set_property` and `table_add_property`. -/
def pageSetProperty (e property : ℕ) : ℕ := e ||| property
/-- `page_del_property`. -/
def pageDelProperty (e property : ℕ) : ℕ := e &&& not32 property
/-- `page_set_frame` and `table_set_frame`. -/
def pageSetFrame (e addr : ℕ) : ℕ := (e &&& not32 pageFrame) ||| addr

/-- `t->entry[i]` of a table or directory. -/
def entryAt (m : Mem) (t i : ℕ) : ℕ := m.read32 (t + 4 * i)

/-- `*a = f (*a)`. -/
def modify (m : Mem) (a : ℕ) (f : ℕ → ℕ) : Mem := m.write32 a (f (m.read32 a))

/-- `memset`. -/
def memset (m : Mem) (a : ℕ) (v : UInt8) (n : ℕ) : Mem := m.load a (List.replicate n v)

/-! ### The operations -/

/-- `map_page` after the table is there. -/
def setPage (dir : ℕ) (m : Mem) (phys virt : ℕ) : Mem :=
  let table := pageAddr (entryAt m dir (pagedirIdx virt))
  let page := table + 4 * pagetableIdx virt
  let m := modify m page (pageSetFrame · phys)
  let m := modify m page (pageSetProperty · pagePresent)
  modify m page (pageSetProperty · pageWritable)

/-- `map_page`, the new table. -/
def addTable (dir : ℕ) (m : Mem) (table virt : ℕ) : Mem :=
  let entry := dir + 4 * pagedirIdx virt
  let m := memset m table 0 4096
  let m := modify m entry (pageSetProperty · pagePresent)
  let m := modify m entry (pageSetProperty · pageWritable)
  modify m entry (pageSetFrame · table)

/-- `map_page`, when `alloc_block` returns `block`; `none` when it dies. -/
def mapPage (block dir : ℕ) (m : Mem) (phys virt : ℕ) : Option Mem :=
  if entryAt m dir (pagedirIdx virt) &&& pagePresent ≠ pagePresent then
    if block = 0 then none else some (setPage dir (addTable dir m block virt) phys virt)
  else some (setPage dir m phys virt)

/-- `free_page`. -/
def freePage (dir : ℕ) (m : Mem) (virt : ℕ) : Mem :=
  let table := pageAddr (entryAt m dir (pagedirIdx virt))
  let page := table + 4 * pagetableIdx virt
  modify m page (pageDelProperty · pagePresent)

/-- The walk that the hardware does for address `a`: the frame of the page, and which of the
flags `PAGE_PRESENT` and `PAGE_WRITABLE` are set on both levels. -/
def walk (m : Mem) (dir a : ℕ) : Option (ℕ × ℕ) :=
  let pde := entryAt m dir (pagedirIdx a)
  if pde &&& pagePresent = 0 then none
  else
    let pte := entryAt m (pageAddr pde) (pagetableIdx a)
    if pte &&& pagePresent = 0 then none
    else some (pageAddr pte, pde &&& pte &&& (pagePresent ||| pageWritable))

/-! ### Arithmetic of the entries -/

/-- The frame and the flags of an entry determine it. -/
theorem entry_ext {a b : ℕ} (hframe : a / 4096 = b / 4096) (hflags : a % 4096 = b % 4096) :
    a = b := by omega

theorem or_div_4096 (a b : ℕ) : (a ||| b) / 4096 = a / 4096 ||| b / 4096 := by
  rw [show 4096 = 2 ^ 12 by norm_num, Nat.or_div_two_pow]

theorem or_mod_4096 (a b : ℕ) : (a ||| b) % 4096 = a % 4096 ||| b % 4096 := by
  rw [show 4096 = 2 ^ 12 by norm_num, Nat.or_mod_two_pow]

theorem and_div_4096 (a b : ℕ) : (a &&& b) / 4096 = a / 4096 &&& b / 4096 := by
  rw [show 4096 = 2 ^ 12 by norm_num, Nat.and_div_two_pow]

theorem and_mod_4096 (a b : ℕ) : (a &&& b) % 4096 = a % 4096 &&& b % 4096 := by
  rw [show 4096 = 2 ^ 12 by norm_num, Nat.and_mod_two_pow]

/-- A new table in an empty directory entry. -/
theorem tableEntry {t : ℕ} (ht : t % 4096 = 0) :
    pageSetFrame (pageSetProperty (pageSetProperty 0 pagePresent) pageWritable) t = t + 3 := by
  have hthree : pageSetProperty (pageSetProperty 0 pagePresent) pageWritable &&& not32 pageFrame =
      3 := by decide
  rw [pageSetFrame, hthree]
  apply entry_ext
  · rw [or_div_4096, show 3 / 4096 = 0 by norm_num, Nat.zero_or]
    omega
  · rw [or_mod_4096, ht, show 3 % 4096 = 3 by norm_num, Nat.or_zero]
    omega

/-- Bit 31 of the old frame, or-ed to a new one, does no harm where it is clear or the new frame
has it as well. -/
theorem bit31_or {e f : ℕ} (hkeep : e < 524288 ∨ 524288 ≤ f) (hf : f < 1048576) :
    e &&& 524288 ||| f = f := by
  rw [show 524288 = 2 ^ 19 by norm_num, Nat.and_two_pow]
  rcases hkeep with hlt | hge
  · rw [Nat.testBit_lt_two_pow (by omega)]
    simp
  · have hsplit : f = 2 ^ 19 ||| (f - 2 ^ 19) := by
      have hor := Nat.two_pow_add_eq_or_of_lt (show f - 2 ^ 19 < 2 ^ 19 by omega) 1
      rw [Nat.mul_one] at hor
      omega
    rw [hsplit, ← Nat.or_assoc]
    cases e.testBit 19 with
    | false => simp
    | true => simp

/-- `map_page` over an entry that has been used before. -/
theorem pageEntry {e phys : ℕ} (he : e < 4294967296)
    (hflags : e % 4096 = 0 ∨ e % 4096 = 2 ∨ e % 4096 = 3) (hphys : phys % 4096 = 0)
    (hphys32 : phys < 4294967296) (hkeep : e < 2147483648 ∨ 2147483648 ≤ phys) :
    pageSetProperty (pageSetProperty (pageSetFrame e phys) pagePresent) pageWritable =
      phys + 3 := by
  unfold pageSetProperty pageSetFrame
  have hmask : not32 pageFrame = 2147487743 := by decide
  apply entry_ext
  · rw [or_div_4096, or_div_4096, or_div_4096, and_div_4096, hmask]
    have hor := bit31_or (e := e / 4096) (f := phys / 4096) (by omega) (by omega)
    simp only [pagePresent, pageWritable, Nat.reduceDiv, Nat.or_zero, hor]
    omega
  · rw [or_mod_4096, or_mod_4096, or_mod_4096, and_mod_4096, hphys, hmask]
    rcases hflags with h | h | h
    · rw [h, show (phys + 3) % 4096 = 3 by omega]
      decide
    · rw [h, show (phys + 3) % 4096 = 3 by omega]
      decide
    · rw [h, show (phys + 3) % 4096 = 3 by omega]
      decide

/-- `free_page` clears the lowest bit. -/
theorem pageDelProperty_present {e : ℕ} (he : e < 4294967296) :
    pageDelProperty e pagePresent = e / 2 * 2 := by
  have hmask : not32 pagePresent = 2 * (2 ^ 31 - 1) := by decide
  have hdiv : (e &&& 2 * (2 ^ 31 - 1)) / 2 ^ 1 = e / 2 := by
    rw [Nat.and_div_two_pow, show 2 * (2 ^ 31 - 1) / 2 ^ 1 = 2 ^ 31 - 1 by norm_num,
      Nat.and_two_pow_sub_one_eq_mod]
    omega
  have hmod : (e &&& 2 * (2 ^ 31 - 1)) % 2 ^ 1 = 0 := by
    rw [Nat.and_mod_two_pow]
    simp
  rw [pageDelProperty, hmask]
  omega

theorem and_present (e : ℕ) : e &&& pagePresent = e % 2 := Nat.and_one_is_mod e

/-! ### Memory -/

/-- A frame: aligned, not at 0, and inside of the memory. -/
structure IsFrame (t : ℕ) : Prop where
  aligned : t % 4096 = 0
  pos : 0 < t
  fits : t + 4096 ≤ 4294967296

/-- Address `x` lies in the frame. -/
def InFrame (t x : ℕ) : Prop := t ≤ x ∧ x < t + 4096

section Frames

variable {m : Mem} {t u i j : ℕ}

theorem entryAt_write (m : Mem) (t i v : ℕ) :
    entryAt (m.write32 (t + 4 * i) v) t i = w32 v := Mem.read32_write32 m _ v

/-- The other entries stay. -/
theorem entryAt_write_of_ne (ht : IsFrame t) (hu : IsFrame u) (hi : i < 1024) (hj : j < 1024)
    (hne : t ≠ u ∨ i ≠ j) (v : ℕ) :
    entryAt (m.write32 (t + 4 * i) v) u j = entryAt m u j := by
  have ha := ht.aligned
  have hb := hu.aligned
  have hfa := ht.fits
  have hfb := hu.fits
  exact Mem.read32_write32_of_disjoint m v (by omega) (by omega) (by omega)

theorem inFrame_of_inWord (ht : IsFrame t) (hi : i < 1024) {x : ℕ} (hx : InWord (t + 4 * i) x) :
    InFrame t x := by
  have hfit := ht.fits
  have := hx.le_lt (by omega)
  exact ⟨by omega, by omega⟩

theorem memset_apply (m : Mem) {a n k : ℕ} (v : UInt8) (hk : k < n) (ha : a + n ≤ 4294967296) :
    memset m a v n (a + k) = v := by
  rw [memset, Mem.load_apply m (by rwa [List.length_replicate]) (by rwa [List.length_replicate]),
    List.getElem_replicate]

theorem memset_outside (m : Mem) {a n x : ℕ} (v : UInt8) (ha : a + n ≤ 4294967296)
    (hx : x < a ∨ a + n ≤ x) : memset m a v n x = m x :=
  Mem.load_outside m (by rwa [List.length_replicate]) (by rwa [List.length_replicate])

/-- The zeroed frame. -/
theorem entryAt_zeroed (ht : IsFrame t) (hi : i < 1024) : entryAt (memset m t 0 4096) t i = 0 := by
  have hfit := ht.fits
  apply Mem.read32_of_zero
  intro x hx
  obtain ⟨hlo, hhi⟩ := hx.le_lt (by omega)
  obtain ⟨k, rfl⟩ : ∃ k, x = t + k := ⟨x - t, by omega⟩
  exact memset_apply m 0 (by omega) hfit

theorem only_zeroed (ht : IsFrame t) : Mem.Only (InFrame t) m (memset m t 0 4096) := by
  intro x hx
  unfold InFrame at hx
  exact memset_outside m 0 ht.fits (by omega)

theorem entryAt_zeroed_of_ne (ht : IsFrame t) (hu : IsFrame u) (hne : t ≠ u) (hj : j < 1024) :
    entryAt (memset m t 0 4096) u j = entryAt m u j := by
  have ha := ht.aligned
  have hb := hu.aligned
  apply (only_zeroed ht).read32
  intro x hx hin
  have := inFrame_of_inWord hu hj hx
  unfold InFrame at this hin
  omega

end Frames

/-! ### The tables and the flat map -/

/-- What an entry of a page table says about its page; after `free_page` the old frame is still
there. -/
def Shows : Option ℕ → ℕ → Prop
  | some phys, pte => phys % 4096 = 0 ∧ phys < 4294967296 ∧ pte = phys + 3
  | none, pte => pte % 4096 = 0 ∨ pte % 4096 = 2

/-- The directory and its tables stand for the flat map from pages to frames. -/
structure Tables (dir : ℕ) (m : Mem) (flat : ℕ → Option ℕ) : Prop where
  dirFrame : IsFrame dir
  entry : ∀ i < 1024, entryAt m dir i = 0 ∨ ∃ t, IsFrame t ∧ t ≠ dir ∧ entryAt m dir i = t + 3
  distinct : ∀ i < 1024, ∀ j < 1024, entryAt m dir i ≠ 0 → entryAt m dir i = entryAt m dir j → i = j
  absent : ∀ i < 1024, entryAt m dir i = 0 → ∀ j < 1024, flat (1024 * i + j) = none
  shows : ∀ i < 1024, ∀ t, IsFrame t → entryAt m dir i = t + 3 → ∀ j < 1024,
    Shows (flat (1024 * i + j)) (entryAt m t j)

/-- A page table entry is written. -/
theorem Tables.writeEntry {dir : ℕ} {m : Mem} {flat : ℕ → Option ℕ} (h : Tables dir m flat)
    {i j t : ℕ} (hi : i < 1024) (hj : j < 1024) (ht : IsFrame t) (hne : t ≠ dir)
    (hentry : entryAt m dir i = t + 3) {o : Option ℕ} {v : ℕ} (hv : v < 4294967296)
    (ho : Shows o v) :
    Tables dir (m.write32 (t + 4 * j) v) (Function.update flat (1024 * i + j) o) := by
  have hdir : ∀ k < 1024, entryAt (m.write32 (t + 4 * j) v) dir k = entryAt m dir k :=
    fun k hk => entryAt_write_of_ne ht h.dirFrame hj hk (.inl hne) v
  refine ⟨h.dirFrame, ?_, ?_, ?_, ?_⟩
  · intro k hk
    rw [hdir k hk]
    exact h.entry k hk
  · intro k hk l hl
    rw [hdir k hk, hdir l hl]
    exact h.distinct k hk l hl
  · intro k hk h0 l hl
    rw [hdir k hk] at h0
    have hki : k ≠ i := by
      rintro rfl
      omega
    rw [Function.update_of_ne (by omega)]
    exact h.absent k hk h0 l hl
  · intro k hk u hu hent l hl
    rw [hdir k hk] at hent
    have hold := h.shows k hk u hu hent l hl
    by_cases hsame : k = i ∧ l = j
    · obtain ⟨rfl, rfl⟩ := hsame
      obtain rfl : t = u := by omega
      rw [Function.update_self, entryAt_write, w32_of_lt hv]
      exact ho
    · have hother : t ≠ u ∨ j ≠ l := by
        by_contra hboth
        push Not at hboth
        obtain ⟨rfl, rfl⟩ := hboth
        have hki := h.distinct k hk i hi (by omega) (by omega)
        exact hsame ⟨hki, rfl⟩
      rw [Function.update_of_ne (by omega), entryAt_write_of_ne ht hu hj hl hother]
      exact hold

/-- A frame that `alloc_block` may return: neither the directory nor one of its tables. -/
structure Fresh (dir : ℕ) (m : Mem) (block : ℕ) : Prop where
  frame : IsFrame block
  ne_dir : block ≠ dir
  table : ∀ i < 1024, entryAt m dir i ≠ block + 3

theorem addTable_eq {dir : ℕ} {m : Mem} {block virt : ℕ} (hdir : IsFrame dir)
    (hb : Fresh dir m block) (h0 : entryAt m dir (pagedirIdx virt) = 0) :
    addTable dir m block virt =
      (memset m block 0 4096).write32 (dir + 4 * pagedirIdx virt) (block + 3) := by
  have hi : pagedirIdx virt < 1024 := Nat.mod_lt _ (by norm_num)
  have hread : (memset m block 0 4096).read32 (dir + 4 * pagedirIdx virt) = 0 := by
    have := entryAt_zeroed_of_ne (m := m) hb.frame hdir hb.ne_dir hi
    rw [h0] at this
    exact this
  have hone : w32 (pageSetProperty 0 pagePresent) = pageSetProperty 0 pagePresent :=
    w32_of_lt (by decide)
  have hthree : w32 (pageSetProperty (pageSetProperty 0 pagePresent) pageWritable) =
      pageSetProperty (pageSetProperty 0 pagePresent) pageWritable := w32_of_lt (by decide)
  simp only [addTable, modify, Mem.write32_write32, Mem.read32_write32, hread, hone, hthree,
    tableEntry hb.frame.aligned]

/-- A new table changes no translation. -/
theorem Tables.addTable {dir : ℕ} {m : Mem} {flat : ℕ → Option ℕ} (h : Tables dir m flat)
    {block virt : ℕ} (hb : Fresh dir m block) (h0 : entryAt m dir (pagedirIdx virt) = 0) :
    Tables dir (addTable dir m block virt) flat ∧
      entryAt (Paging.addTable dir m block virt) dir (pagedirIdx virt) = block + 3 ∧
      ∀ j < 1024, entryAt (Paging.addTable dir m block virt) block j = 0 := by
  obtain ⟨hbf, hbd, hbt⟩ := hb
  have hi : pagedirIdx virt < 1024 := Nat.mod_lt _ (by norm_num)
  rw [addTable_eq h.dirFrame ⟨hbf, hbd, hbt⟩ h0]
  set i := pagedirIdx virt with hidx
  set m₁ := memset m block 0 4096 with hm₁
  have hfit := hbf.fits
  have hself : entryAt (m₁.write32 (dir + 4 * i) (block + 3)) dir i = block + 3 := by
    rw [entryAt_write, w32_of_lt (by omega)]
  have hdir : ∀ k < 1024, k ≠ i →
      entryAt (m₁.write32 (dir + 4 * i) (block + 3)) dir k = entryAt m dir k := by
    intro k hk hki
    rw [entryAt_write_of_ne h.dirFrame h.dirFrame hi hk (.inr (Ne.symm hki)),
      entryAt_zeroed_of_ne hbf h.dirFrame hbd hk]
  have htable : ∀ u, IsFrame u → u ≠ dir → u ≠ block → ∀ j < 1024,
      entryAt (m₁.write32 (dir + 4 * i) (block + 3)) u j = entryAt m u j := by
    intro u hu hud hub j hj
    rw [entryAt_write_of_ne h.dirFrame hu hi hj (.inl (Ne.symm hud)),
      entryAt_zeroed_of_ne hbf hu (Ne.symm hub) hj]
  have hzero : ∀ j < 1024, entryAt (m₁.write32 (dir + 4 * i) (block + 3)) block j = 0 := by
    intro j hj
    rw [entryAt_write_of_ne h.dirFrame hbf hi hj (.inl (Ne.symm hbd)), entryAt_zeroed hbf hj]
  refine ⟨⟨h.dirFrame, ?_, ?_, ?_, ?_⟩, hself, hzero⟩
  · intro k hk
    by_cases hki : k = i
    · rw [hki, hself]
      exact .inr ⟨block, hbf, hbd, rfl⟩
    · rw [hdir k hk hki]
      exact h.entry k hk
  · intro k hk l hl
    by_cases hki : k = i
    · by_cases hli : l = i
      · intro _ _
        rw [hki, hli]
      · rw [hki, hself, hdir l hl hli]
        intro _ heq
        exact absurd heq.symm (hbt l hl)
    · by_cases hli : l = i
      · rw [hli, hself, hdir k hk hki]
        intro _ heq
        exact absurd heq (hbt k hk)
      · rw [hdir k hk hki, hdir l hl hli]
        exact h.distinct k hk l hl
  · intro k hk hk0 j hj
    have hki : k ≠ i := by
      rintro rfl
      omega
    rw [hdir k hk hki] at hk0
    exact h.absent k hk hk0 j hj
  · intro k hk u hu hent j hj
    by_cases hki : k = i
    · -- the new table is empty
      rw [hki, hself] at hent
      obtain rfl : block = u := by omega
      rw [hki, h.absent i hi h0 j hj, hzero j hj]
      exact .inl rfl
    · rw [hdir k hk hki] at hent
      have hub : u ≠ block := by
        rintro rfl
        exact hbt k hk hent
      obtain hnone | ⟨t, ht, htd, htent⟩ := h.entry k hk
      · omega
      · have hut : u = t := by omega
        rw [htable u hu (by rwa [hut]) hub j hj]
        exact h.shows k hk u hu hent j hj

/-! ### The walk -/

theorem page_eq {a : ℕ} (ha : a < 4294967296) :
    1024 * pagedirIdx a + pagetableIdx a = a / 4096 := by
  unfold pagedirIdx pagetableIdx
  omega

theorem pageAddr_entry {t : ℕ} (ht : t % 4096 = 0) : pageAddr (t + 3) = t := by
  unfold pageAddr
  omega

/-- The flags of two entries that have both. -/
theorem flags_and {t p : ℕ} (ht : t % 4096 = 0) (hp : p % 4096 = 0) :
    (t + 3) &&& (p + 3) &&& (pagePresent ||| pageWritable) = 3 := by
  have hthree : pagePresent ||| pageWritable = 2 ^ 2 - 1 := by decide
  rw [hthree, Nat.and_two_pow_sub_one_eq_mod, Nat.and_mod_two_pow,
    show (t + 3) % 2 ^ 2 = 3 by omega, show (p + 3) % 2 ^ 2 = 3 by omega]
  decide

/-- The walk gives the flat map's answer, with both flags set. -/
theorem Tables.walk_eq {dir : ℕ} {m : Mem} {flat : ℕ → Option ℕ} (h : Tables dir m flat) {a : ℕ}
    (ha : a < 4294967296) :
    walk m dir a = (flat (a / 4096)).map fun phys => (phys, pagePresent ||| pageWritable) := by
  have hi : pagedirIdx a < 1024 := Nat.mod_lt _ (by norm_num)
  have hj : pagetableIdx a < 1024 := Nat.mod_lt _ (by norm_num)
  unfold walk
  simp only
  rw [← page_eq ha]
  rcases h.entry _ hi with h0 | ⟨t, ht, -, hent⟩
  · rw [h0, if_pos (Nat.zero_and _), h.absent _ hi h0 _ hj]
    rfl
  · have hpresent : ¬ (t + 3) &&& pagePresent = 0 := by
      have := ht.aligned
      rw [and_present]
      omega
    have hpte := h.shows _ hi t ht hent _ hj
    rw [hent, if_neg hpresent, pageAddr_entry ht.aligned]
    cases hflat : flat (1024 * pagedirIdx a + pagetableIdx a) with
    | none =>
        rw [hflat] at hpte
        have hfree : entryAt m t (pagetableIdx a) % 4096 = 0 ∨
            entryAt m t (pagetableIdx a) % 4096 = 2 := hpte
        rw [and_present, if_pos (by omega)]
        rfl
    | some phys =>
        rw [hflat] at hpte
        obtain ⟨hphys, -, hpte⟩ := hpte
        have hmapped : ¬ (phys + 3) &&& pagePresent = 0 := by
          rw [and_present]
          omega
        rw [hpte, if_neg hmapped, pageAddr_entry hphys, flags_and ht.aligned hphys]
        rfl

/-! ### The operations on the flat map -/

theorem pageSetFrame_lt {e addr : ℕ} (he : e < 4294967296) (ha : addr < 4294967296) :
    pageSetFrame e addr < 4294967296 :=
  Nat.or_lt_two_pow (n := 32) (lt_of_le_of_lt Nat.and_le_left he) ha

theorem pageSetProperty_lt {e property : ℕ} (he : e < 4294967296) (hp : property < 4294967296) :
    pageSetProperty e property < 4294967296 := Nat.or_lt_two_pow (n := 32) he hp

/-- An entry that stands for a page, mapped or not, has flags that `map_page` can be given. -/
theorem Shows.flags {o : Option ℕ} {pte : ℕ} (h : Shows o pte) :
    pte % 4096 = 0 ∨ pte % 4096 = 2 ∨ pte % 4096 = 3 := by
  cases o with
  | none =>
      rcases h with h | h
      · exact .inl h
      · exact .inr (.inl h)
  | some phys =>
      obtain ⟨hphys, -, rfl⟩ := h
      omega

section Operations

variable {dir : ℕ} {m : Mem} {flat : ℕ → Option ℕ} {phys virt t : ℕ}

theorem setPage_eq (ht : IsFrame t) (hent : entryAt m dir (pagedirIdx virt) = t + 3) {o : Option ℕ}
    (ho : Shows o (entryAt m t (pagetableIdx virt))) (hphys : phys % 4096 = 0)
    (hphys32 : phys < 4294967296)
    (hkeep : entryAt m t (pagetableIdx virt) < 2147483648 ∨ 2147483648 ≤ phys) :
    setPage dir m phys virt = m.write32 (t + 4 * pagetableIdx virt) (phys + 3) := by
  have he : entryAt m t (pagetableIdx virt) < 4294967296 := Mem.read32_lt m _
  have hframe := pageSetFrame_lt he hphys32
  have hpresent := pageSetProperty_lt hframe (show pagePresent < 4294967296 by decide)
  have hentry := pageEntry he ho.flags hphys hphys32 hkeep
  have hread : m.read32 (t + 4 * pagetableIdx virt) = entryAt m t (pagetableIdx virt) := rfl
  simp only [setPage, hent, pageAddr_entry ht.aligned, modify, Mem.write32_write32,
    Mem.read32_write32, hread]
  rw [w32_of_lt hframe, w32_of_lt hpresent, hentry]

theorem freePage_eq (ht : IsFrame t) (hent : entryAt m dir (pagedirIdx virt) = t + 3) :
    freePage dir m virt = m.write32 (t + 4 * pagetableIdx virt)
      (entryAt m t (pagetableIdx virt) / 2 * 2) := by
  have he : entryAt m t (pagetableIdx virt) < 4294967296 := Mem.read32_lt m _
  rw [← pageDelProperty_present he, freePage]
  simp only [hent, pageAddr_entry ht.aligned]
  rfl

/-- The bytes of the directory and of its tables. -/
def Inside (dir : ℕ) (m : Mem) (x : ℕ) : Prop :=
  InFrame dir x ∨ ∃ i < 1024, ∃ t, IsFrame t ∧ entryAt m dir i = t + 3 ∧ InFrame t x

/-- A write to an entry of a table stays inside. -/
theorem only_writeEntry (hdir : IsFrame dir) (ht : IsFrame t) (hne : t ≠ dir) {i j : ℕ}
    (hi : i < 1024) (hj : j < 1024) (hent : entryAt m dir i = t + 3) (v : ℕ) :
    Mem.Only (Inside dir (m.write32 (t + 4 * j) v)) m (m.write32 (t + 4 * j) v) := by
  apply (Mem.only_write32 m _ v).mono
  intro x hx
  refine .inr ⟨i, hi, t, ht, ?_, inFrame_of_inWord ht hj hx⟩
  rw [entryAt_write_of_ne ht hdir hj hi (.inl hne), hent]

end Operations

/-! ### Runs -/

/-- The memory, and the flat map from pages to frames that the calls ask for. -/
structure PageState where
  mem : Mem
  flat : ℕ → Option ℕ

inductive PageEvent where
  /-- `map_page`, with what `alloc_block` returns when it is called. -/
  | map (phys virt block : ℕ)
  | free (virt : ℕ)

/-- The calls of `map_page` and `free_page`, with the directory at `dir`. -/
inductive PageStep (dir : ℕ) : PageState → PageEvent → PageState → Prop
  | map (s : PageState) (phys virt block : ℕ) (m : Mem) : phys % 4096 = 0 → phys < 4294967296 →
      virt < 4294967296 →
      (entryAt s.mem dir (pagedirIdx virt) &&& pagePresent ≠ pagePresent → Fresh dir s.mem block) →
      mapPage block dir s.mem phys virt = some m →
      PageStep dir s (.map phys virt block) ⟨m, Function.update s.flat (virt / 4096) (some phys)⟩
  | free (s : PageState) (virt : ℕ) : virt < 4294967296 →
      PageStep dir s (.free virt)
        ⟨freePage dir s.mem virt, Function.update s.flat (virt / 4096) none⟩

/-- The page of the call. -/
def PageEvent.page : PageEvent → ℕ
  | map _ virt _ => virt / 4096
  | free virt => virt / 4096

/-- The call meets the assumptions of the code: `free_page` finds a table, and `map_page` does
not replace a frame from 2 GiB on by one below. -/
def Suits (dir : ℕ) (s : PageState) : PageEvent → Prop
  | .map phys virt _ => entryAt s.mem dir (pagedirIdx virt) &&& pagePresent = pagePresent →
      entryAt s.mem (pageAddr (entryAt s.mem dir (pagedirIdx virt))) (pagetableIdx virt) <
        2147483648 ∨ 2147483648 ≤ phys
  | .free virt => entryAt s.mem dir (pagedirIdx virt) &&& pagePresent = pagePresent

/-- The tables translate every address as the flat map does. -/
def Translates (dir : ℕ) (s : PageState) : Prop :=
  ∀ a < 4294967296, walk s.mem dir a =
    (s.flat (a / 4096)).map fun phys => (phys, pagePresent ||| pageWritable)

/-- A present directory entry leads to a table. -/
theorem Tables.present {dir : ℕ} {m : Mem} {flat : ℕ → Option ℕ} (h : Tables dir m flat) {i : ℕ}
    (hi : i < 1024) (hp : entryAt m dir i &&& pagePresent = pagePresent) :
    ∃ t, IsFrame t ∧ t ≠ dir ∧ entryAt m dir i = t + 3 := by
  rcases h.entry i hi with h0 | ht
  · rw [h0, Nat.zero_and] at hp
    exact absurd hp (by decide)
  · exact ht

/-- An absent one is 0. -/
theorem Tables.eq_zero {dir : ℕ} {m : Mem} {flat : ℕ → Option ℕ} (h : Tables dir m flat) {i : ℕ}
    (hi : i < 1024) (hp : entryAt m dir i &&& pagePresent ≠ pagePresent) : entryAt m dir i = 0 := by
  rcases h.entry i hi with h0 | ⟨t, ht, -, hent⟩
  · exact h0
  · have := ht.aligned
    rw [hent, and_present] at hp
    exact absurd (show (t + 3) % 2 = 1 by omega) hp

/-- `map_page` where the table is there. -/
theorem setPage_inv {dir : ℕ} {m : Mem} {flat : ℕ → Option ℕ} {phys virt t : ℕ}
    (h : Tables dir m flat) (ht : IsFrame t) (hne : t ≠ dir)
    (hent : entryAt m dir (pagedirIdx virt) = t + 3) (hphys : phys % 4096 = 0)
    (hphys32 : phys < 4294967296) (hvirt : virt < 4294967296)
    (hkeep : entryAt m t (pagetableIdx virt) < 2147483648 ∨ 2147483648 ≤ phys) :
    Tables dir (setPage dir m phys virt) (Function.update flat (virt / 4096) (some phys)) ∧
      Mem.Only (Inside dir (setPage dir m phys virt)) m (setPage dir m phys virt) := by
  have hi : pagedirIdx virt < 1024 := Nat.mod_lt _ (by norm_num)
  have hj : pagetableIdx virt < 1024 := Nat.mod_lt _ (by norm_num)
  have hshows := h.shows _ hi t ht hent _ hj
  rw [setPage_eq ht hent hshows hphys hphys32 hkeep, ← page_eq hvirt]
  refine ⟨?_, only_writeEntry h.dirFrame ht hne hi hj hent _⟩
  exact h.writeEntry hi hj ht hne hent (by omega) ⟨hphys, hphys32, rfl⟩

/-- `free_page` where the table is there. -/
theorem freePage_inv {dir : ℕ} {m : Mem} {flat : ℕ → Option ℕ} {virt t : ℕ}
    (h : Tables dir m flat) (ht : IsFrame t) (hne : t ≠ dir)
    (hent : entryAt m dir (pagedirIdx virt) = t + 3) (hvirt : virt < 4294967296) :
    Tables dir (freePage dir m virt) (Function.update flat (virt / 4096) none) ∧
      Mem.Only (Inside dir (freePage dir m virt)) m (freePage dir m virt) := by
  have hi : pagedirIdx virt < 1024 := Nat.mod_lt _ (by norm_num)
  have hj : pagetableIdx virt < 1024 := Nat.mod_lt _ (by norm_num)
  have hflags := (h.shows _ hi t ht hent _ hj).flags
  have he : entryAt m t (pagetableIdx virt) < 4294967296 := Mem.read32_lt m _
  rw [freePage_eq ht hent, ← page_eq hvirt]
  refine ⟨?_, only_writeEntry h.dirFrame ht hne hi hj hent _⟩
  refine h.writeEntry hi hj ht hne hent (by omega) ?_
  change _ % 4096 = 0 ∨ _ % 4096 = 2
  omega

/-- `map_page` where the table is missing. -/
theorem addTable_inv {dir : ℕ} {m : Mem} {flat : ℕ → Option ℕ} {phys virt block : ℕ}
    (h : Tables dir m flat) (hb : Fresh dir m block) (h0 : entryAt m dir (pagedirIdx virt) = 0)
    (hphys : phys % 4096 = 0) (hphys32 : phys < 4294967296) (hvirt : virt < 4294967296) :
    let m' := setPage dir (addTable dir m block virt) phys virt
    Tables dir m' (Function.update flat (virt / 4096) (some phys)) ∧
      Mem.Only (Inside dir m') m m' := by
  intro m'
  have hi : pagedirIdx virt < 1024 := Nat.mod_lt _ (by norm_num)
  have hj : pagetableIdx virt < 1024 := Nat.mod_lt _ (by norm_num)
  obtain ⟨htables, hent, hzero⟩ := h.addTable hb h0
  obtain ⟨htables', honly⟩ := setPage_inv htables hb.frame hb.ne_dir hent hphys hphys32 hvirt
    (.inl (by rw [hzero _ hj]; norm_num))
  refine ⟨htables', Mem.Only.trans ?_ honly⟩
  -- the new table is inside, and so is the directory
  have hent' : entryAt m' dir (pagedirIdx virt) = block + 3 := by
    have hpte : Shows (flat (1024 * pagedirIdx virt + pagetableIdx virt))
        (entryAt (addTable dir m block virt) block (pagetableIdx virt)) :=
      htables.shows _ hi block hb.frame hent _ hj
    change entryAt (setPage dir (addTable dir m block virt) phys virt) dir _ = _
    rw [setPage_eq hb.frame hent hpte hphys hphys32 (.inl (by rw [hzero _ hj]; norm_num)),
      entryAt_write_of_ne hb.frame h.dirFrame hj hi (.inl hb.ne_dir), hent]
  rw [addTable_eq h.dirFrame hb h0]
  apply Mem.Only.write32
  · apply (only_zeroed hb.frame).mono
    intro x hx
    exact .inr ⟨_, hi, block, hb.frame, hent', hx⟩
  · intro x hx
    exact .inl (inFrame_of_inWord h.dirFrame hi hx)

/-- One call. -/
theorem step_tables {dir : ℕ} {s s' : PageState} {e : PageEvent} (h : Tables dir s.mem s.flat)
    (hsuits : Suits dir s e) (hs : PageStep dir s e s') :
    Tables dir s'.mem s'.flat ∧ Mem.Only (Inside dir s'.mem) s.mem s'.mem ∧
      ∀ p, p ≠ e.page → s'.flat p = s.flat p := by
  cases hs with
  | map phys virt block m hphys hphys32 hvirt hfresh hmap =>
      have hi : pagedirIdx virt < 1024 := Nat.mod_lt _ (by norm_num)
      unfold mapPage at hmap
      by_cases hp : entryAt s.mem dir (pagedirIdx virt) &&& pagePresent = pagePresent
      · obtain ⟨t, ht, hne, hent⟩ := h.present hi hp
        rw [if_neg (not_not.mpr hp), Option.some.injEq] at hmap
        have hkeep := hsuits hp
        rw [hent, pageAddr_entry ht.aligned] at hkeep
        obtain ⟨htables, honly⟩ := setPage_inv h ht hne hent hphys hphys32 hvirt hkeep
        rw [← hmap]
        exact ⟨htables, honly, fun p hpne => Function.update_of_ne hpne _ _⟩
      · have hb := hfresh hp
        rw [if_pos hp, if_neg hb.frame.pos.ne', Option.some.injEq] at hmap
        obtain ⟨htables, honly⟩ := addTable_inv h hb (h.eq_zero hi hp) hphys hphys32 hvirt
        rw [← hmap]
        exact ⟨htables, honly, fun p hpne => Function.update_of_ne hpne _ _⟩
  | free virt hvirt =>
      have hi : pagedirIdx virt < 1024 := Nat.mod_lt _ (by norm_num)
      obtain ⟨t, ht, hne, hent⟩ := h.present hi hsuits
      obtain ⟨htables, honly⟩ := freePage_inv h ht hne hent hvirt
      exact ⟨htables, honly, fun p hpne => Function.update_of_ne hpne _ _⟩

/-- A zeroed directory maps nothing. -/
theorem tables_zero {dir : ℕ} {m : Mem} (hdir : IsFrame dir)
    (hzero : ∀ i < 1024, entryAt m dir i = 0) : Tables dir m fun _ => none where
  dirFrame := hdir
  entry i hi := .inl (hzero i hi)
  distinct i hi j hj hne := absurd (hzero i hi) hne
  absent _ _ _ _ _ := rfl
  shows i hi t ht hent := by
    rw [hzero i hi] at hent
    omega

/-- From a zeroed directory, every run of calls that suit the code translates every address as
the flat map does; and in every state that it reaches, one more such call keeps that, leaves
the other pages alone, and writes only to the directory and its tables. -/
theorem paging_refines {dir : ℕ} {m : Mem} {tr : List (PageState × PageEvent)} {s : PageState}
    (hdir : IsFrame dir) (hzero : ∀ i < 1024, entryAt m dir i = 0)
    (hrun : Run (PageStep dir) ⟨m, fun _ => none⟩ tr s) (hsuits : ∀ p ∈ tr, Suits dir p.1 p.2) :
    Translates dir s ∧ ∀ e s', PageStep dir s e s' → Suits dir s e →
      Translates dir s' ∧
        (∀ a < 4294967296, a / 4096 ≠ e.page → walk s'.mem dir a = walk s.mem dir a) ∧
        Mem.Only (Inside dir s'.mem) s.mem s'.mem := by
  have htables : Tables dir s.mem s.flat := hrun.invariant
    (I := fun s => Tables dir s.mem s.flat) (G := Suits dir)
    (fun _ _ _ h hg hs => (step_tables h hg hs).1) (tables_zero hdir hzero) hsuits
  refine ⟨fun a ha => htables.walk_eq ha, fun e s' hs hse => ?_⟩
  obtain ⟨htables', honly, hothers⟩ := step_tables htables hse hs
  refine ⟨fun a ha => htables'.walk_eq ha, fun a ha hne => ?_, honly⟩
  rw [htables'.walk_eq ha, htables.walk_eq ha, hothers _ hne]

/-! ### A directory at 4096 -/

/-- A memory with a byte 1 at address 0 and zeroes elsewhere. -/
def sparseMem : Mem := fun x => if x = 0 then 1 else 0

theorem sparseMem_zero : ∀ i < 1024, entryAt sparseMem 4096 i = 0 := by
  intro i hi
  apply Mem.read32_of_zero
  intro x hx
  have := hx.le_lt (by omega)
  rw [sparseMem, if_neg (by omega)]

theorem isFrame_4096 : IsFrame 4096 := ⟨by norm_num, by norm_num, by norm_num⟩

/-- The page at 4096 is mapped to 2 MiB, with a table at 8192. -/
def onePage : PageState :=
  ⟨setPage 4096 (addTable 4096 sparseMem 8192 4096) 2097152 4096,
    Function.update (fun _ => none) (4096 / 4096) (some 2097152)⟩

/-- The state after a call, when it returns. -/
def PageState.next (dir : ℕ) (s : PageState) : PageEvent → PageState
  | .map phys virt block =>
      ⟨(mapPage block dir s.mem phys virt).getD s.mem,
        Function.update s.flat (virt / 4096) (some phys)⟩
  | .free virt => ⟨freePage dir s.mem virt, Function.update s.flat (virt / 4096) none⟩

/-- The call finds a table, and its arguments are addresses. -/
def PageEvent.OnTable (dir : ℕ) (s : PageState) : PageEvent → Prop
  | .map phys virt _ => phys % 4096 = 0 ∧ phys < 4294967296 ∧ virt < 4294967296 ∧
      entryAt s.mem dir (pagedirIdx virt) &&& pagePresent = pagePresent
  | .free virt => virt < 4294967296

instance (dir : ℕ) (s : PageState) : (ev : PageEvent) → Decidable (ev.OnTable dir s)
  | .map _ _ _ => inferInstanceAs (Decidable (_ ∧ _))
  | .free virt => inferInstanceAs (Decidable (virt < _))

instance (dir : ℕ) (s : PageState) : (ev : PageEvent) → Decidable (Suits dir s ev)
  | .map _ _ _ => inferInstanceAs (Decidable (_ → _))
  | .free _ => inferInstanceAs (Decidable (_ = _))

theorem PageStep.next {dir : ℕ} {s : PageState} {ev : PageEvent} (h : ev.OnTable dir s) :
    PageStep dir s ev (s.next dir ev) := by
  cases ev with
  | map phys virt block =>
      obtain ⟨hphys, hlt, hvirt, hpresent⟩ := h
      refine .map s phys virt block _ hphys hlt hvirt (fun habsent => absurd hpresent habsent) ?_
      rw [mapPage, if_neg (not_not.mpr hpresent), Option.getD_some]
  | free virt => exact .free s virt h

/-- The page is mapped to 3 MiB instead, the next one to 2 MiB, and the first one is freed. -/
def remapCalls : List PageEvent := [.map 3145728 4096 0, .map 2097152 8192 0, .free 4096]

/-- The state after these calls. -/
def remapped : PageState := remapCalls.foldl (PageState.next 4096) onePage

/-- The theorem for the call that maps the page, and these calls. -/
theorem paging_refines_remap :
    (walk remapped.mem 4096 4096 = none ∧ walk remapped.mem 4096 8192 = some (2097152, 3)) ∧
      Translates 4096 remapped ∧ ∀ e s', PageStep 4096 remapped e s' → Suits 4096 remapped e →
        Translates 4096 s' ∧
          (∀ a < 4294967296, a / 4096 ≠ e.page →
            walk s'.mem 4096 a = walk remapped.mem 4096 a) ∧
          Mem.Only (Inside 4096 s'.mem) remapped.mem s'.mem := by
  have h0 : entryAt sparseMem 4096 (pagedirIdx 4096) = 0 :=
    sparseMem_zero _ (Nat.mod_lt _ (by norm_num))
  have habsent : entryAt sparseMem 4096 (pagedirIdx 4096) &&& pagePresent ≠ pagePresent := by
    rw [h0, Nat.zero_and]
    decide
  have hfresh : Fresh 4096 sparseMem 8192 :=
    ⟨⟨by norm_num, by norm_num, by norm_num⟩, by norm_num, fun i hi => by
      rw [sparseMem_zero i hi]
      norm_num⟩
  have hmap : mapPage 8192 4096 sparseMem 2097152 4096 = some onePage.mem := by
    rw [mapPage, if_pos habsent, if_neg (by norm_num)]
    rfl
  have hfirst : PageStep 4096 ⟨sparseMem, fun _ => none⟩ (.map 2097152 4096 8192) onePage :=
    .map _ 2097152 4096 8192 _ (by norm_num) (by norm_num) (by norm_num) (fun _ => hfresh) hmap
  have htable : ∀ p ∈ traceOf (PageState.next 4096) onePage remapCalls, p.2.OnTable 4096 p.1 := by
    decide +kernel
  have hsuits : ∀ p ∈ traceOf (PageState.next 4096) onePage remapCalls, Suits 4096 p.1 p.2 := by
    decide +kernel
  have hrun : Run (PageStep 4096) ⟨sparseMem, fun _ => none⟩ _ remapped :=
    .cons hfirst (.of_events remapCalls onePage fun p hp => .next (htable p hp))
  refine ⟨⟨by decide +kernel, by decide +kernel⟩,
    paging_refines isFrame_4096 sparseMem_zero hrun ?_⟩
  refine List.forall_mem_cons.mpr ⟨?_, hsuits⟩
  simp only [Suits]
  exact fun hp => absurd hp habsent

/-- `free_page` of a page without a table clears a bit at address 0. -/
theorem free_writes_outside :
    ¬ ∀ (dir : ℕ) (m : Mem) (tr : List (PageState × PageEvent)) (s : PageState), IsFrame dir →
      (∀ i < 1024, entryAt m dir i = 0) → Run (PageStep dir) ⟨m, fun _ => none⟩ tr s →
      Translates dir s ∧ ∀ e s', PageStep dir s e s' → Translates dir s' ∧
        (∀ a < 4294967296, a / 4096 ≠ e.page → walk s'.mem dir a = walk s.mem dir a) ∧
        Mem.Only (Inside dir s'.mem) s.mem s'.mem := by
  intro h
  have hfree : freePage 4096 sparseMem 0 = sparseMem.write32 0 0 := by
    have h0 := sparseMem_zero 0 (by norm_num)
    have hword : sparseMem.read32 0 = 1 := by decide +kernel
    rw [freePage]
    simp only [show pagedirIdx 0 = 0 by rfl, h0, show pageAddr 0 = 0 by rfl,
      show pagetableIdx 0 = 0 by rfl, modify, hword]
    rfl
  have honly := ((h 4096 sparseMem [] _ isFrame_4096 sparseMem_zero (.nil _)).2 _ _
    (.free _ 0 (by norm_num))).2.2
  rw [hfree] at honly
  have hbyte : sparseMem.write32 0 0 0 = sparseMem 0 := by
    apply honly
    rintro (hin | ⟨i, hi, t, ht, hent, -⟩)
    · exact absurd hin.1 (by norm_num)
    · have hread : entryAt (sparseMem.write32 0 0) 4096 i = entryAt sparseMem 4096 i :=
        Mem.read32_write32_of_disjoint _ _ (by norm_num) (by omega) (by omega)
      rw [hread, sparseMem_zero i hi] at hent
      omega
  exact absurd hbyte (by decide +kernel)

end Owmice.Paging
