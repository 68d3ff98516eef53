import Owmice.Paging

/-! # Mapping a range of addresses (`map_pages` and `map_tables` of `mem/paging.h`)

A range is mapped page by page, or table by table, after its size has been rounded to pages or to
tables.  Here a directory may hold anything: entries with flags of any kind, and page tables with
any contents.  It is seen as a `View`, which says of every slot of the directory whether there is a
table and whether it is writable, and of every page its entry.

* `writeEntry_stands`, `attachTable_stands`: the two writes, on the view;
* `mapPages_stands`, `mapTables_stands`: the loops, on the view;
* `covers_iff`: the ranges that `map_pages` and `map_tables` cover. -/

namespace Owmice.Paging

/-! ### The code -/

/-- `size_to_pages`. -/
def sizeToPages (sz : ℕ) : ℕ :=
  let res := w32 (sz / 4096 * 4096 + 0x1000) / 4096
  if res = 0 then 1 else res

/-- `size_to_tables`. -/
def sizeToTables (sz : ℕ) : ℕ :=
  let res := w32 (0x1000 + sz / 4096 * 4096) / 4194304
  if res = 0 then 1 else res

/-- `map_pages`; `block i` is the frame that `alloc_block` returns for a table in slot `i`. -/
def mapPages (block : ℕ → ℕ) (dir : ℕ) : ℕ → Mem → ℕ → ℕ → Option Mem
  | 0, m, _, _ => some m
  | amt + 1, m, phys, virt => do
      let m ← mapPage (block (pagedirIdx virt)) dir m phys virt
      mapPages block dir amt m (w32 (phys + 4096)) (w32 (virt + 4096))

/-- The loop of `map_table` that fills the new table. -/
def fillTable (table : ℕ) : ℕ → Mem → ℕ → ℕ → Mem
  | 0, m, _, _ => m
  | n + 1, m, frame, virt =>
      let page := pageSetFrame (pageSetProperty (pageSetProperty 0 pagePresent) pageWritable) frame
      let m := m.write32 (table + 4 * pagetableIdx virt) page
      fillTable table n m (w32 (frame + 4096)) (w32 (virt + 4096))

/-- The last lines of `map_table`, which are also those of `map_page` for a new table. -/
def attachTable (dir : ℕ) (m : Mem) (table virt : ℕ) : Mem :=
  let entry := dir + 4 * pagedirIdx virt
  let m := modify m entry (pageSetProperty · pagePresent)
  let m := modify m entry (pageSetProperty · pageWritable)
  modify m entry (pageSetFrame · table)

/-- `map_table`, when `alloc_block` returns `block`; `none` when it dies. -/
def mapTable (block dir : ℕ) (m : Mem) (phys virt : ℕ) : Option Mem :=
  if entryAt m dir (pagedirIdx virt) &&& pagePresent ≠ pagePresent then
    if block = 0 then none
    else
      let m := memset m block 0 4096
      let m := fillTable block 1024 m phys virt
      some (attachTable dir m block virt)
  else some m

/-- `map_tables`. -/
def mapTables (block : ℕ → ℕ) (dir : ℕ) : ℕ → Mem → ℕ → ℕ → Option Mem
  | 0, m, _, _ => some m
  | amt + 1, m, phys, virt => do
      let m ← mapTable (block (pagedirIdx virt)) dir m phys virt
      mapTables block dir amt m (w32 (phys + 4194304)) (w32 (virt + 4194304))

theorem mapPages_succ (block : ℕ → ℕ) (dir n : ℕ) (m : Mem) (phys virt : ℕ) :
    mapPages block dir (n + 1) m phys virt =
      (mapPage (block (pagedirIdx virt)) dir m phys virt).bind fun m =>
        mapPages block dir n m (w32 (phys + 4096)) (w32 (virt + 4096)) := rfl

theorem mapTables_succ (block : ℕ → ℕ) (dir n : ℕ) (m : Mem) (phys virt : ℕ) :
    mapTables block dir (n + 1) m phys virt =
      (mapTable (block (pagedirIdx virt)) dir m phys virt).bind fun m =>
        mapTables block dir n m (w32 (phys + 4194304)) (w32 (virt + 4194304)) := rfl

/-- What the hardware makes of an address, and the flags on the way. -/
def translate (m : Mem) (dir a : ℕ) : Option (ℕ × ℕ) :=
  (walk m dir a).map fun w => (w.1 + a % 4096, w.2)

/-! ### Entries -/

/-- The entry of `map_page` over an entry `e`. -/
def newEntry (e phys : ℕ) : ℕ :=
  pageSetProperty (pageSetProperty (pageSetFrame e phys) pagePresent) pageWritable

theorem or_mod_4 (a b : ℕ) : (a ||| b) % 4 = a % 4 ||| b % 4 := by
  rw [show 4 = 2 ^ 2 by norm_num, Nat.or_mod_two_pow]

theorem and_mod_4 (a b : ℕ) : (a &&& b) % 4 = a % 4 &&& b % 4 := by
  rw [show 4 = 2 ^ 2 by norm_num, Nat.and_mod_two_pow]

/-- Both flags are set. -/
theorem or_one_two_mod (a : ℕ) : (a ||| pagePresent ||| pageWritable) % 4 = 3 := by
  rw [or_mod_4, or_mod_4]
  have hlt : a % 4 < 4 := Nat.mod_lt _ (by norm_num)
  generalize a % 4 = r at hlt
  interval_cases r <;> rfl

theorem newEntry_lt {e phys : ℕ} (he : e < 4294967296) (hphys : phys < 4294967296) :
    newEntry e phys < 4294967296 :=
  pageSetProperty_lt (pageSetProperty_lt (pageSetFrame_lt he hphys) (by decide)) (by decide)

theorem newEntry_mod (e phys : ℕ) : newEntry e phys % 4 = 3 := or_one_two_mod _

/-- The frame of the new entry is the one that was asked for unless it has kept bit 31 of the old
entry. -/
theorem pageAddr_newEntry {e phys : ℕ} (he : e < 4294967296) (haligned : phys % 4096 = 0)
    (hphys : phys < 4294967296) :
    pageAddr (newEntry e phys) = phys ↔ e < 2147483648 ∨ 2147483648 ≤ phys := by
  have hframe : newEntry e phys / 4096 = e / 4096 &&& 524288 ||| phys / 4096 := by
    have hmask : not32 pageFrame = 2147487743 := by decide
    rw [newEntry, pageSetProperty, pageSetProperty, pageSetFrame, or_div_4096, or_div_4096,
      or_div_4096, and_div_4096, hmask]
    simp only [pagePresent, pageWritable, Nat.reduceDiv, Nat.or_zero]
  rw [pageAddr, hframe]
  constructor
  · intro heq
    by_contra hno
    have hbit : e / 4096 &&& 524288 = 524288 := by
      rw [show 524288 = 2 ^ 19 by norm_num, Nat.and_two_pow, Nat.testBit_eq_decide_div_mod_eq]
      simp only [show e / 4096 / 2 ^ 19 % 2 = 1 by omega, decide_true, Bool.toNat_true, Nat.one_mul]
    have hge : 524288 ≤ e / 4096 &&& 524288 ||| phys / 4096 := by
      rw [hbit]
      exact Nat.left_le_or
    omega
  · intro hkeep
    rw [bit31_or (by omega) (by omega)]
    omega

/-- The entry of a new table in a directory entry that was not present. -/
theorem tableEntry_of_lt {e t : ℕ} (he : e < 2147483648) (haligned : t % 4096 = 0)
    (ht : t < 4294967296) :
    pageAddr (pageSetFrame (pageSetProperty (pageSetProperty e pagePresent) pageWritable) t) = t ∧
      pageSetFrame (pageSetProperty (pageSetProperty e pagePresent) pageWritable) t % 4 = 3 := by
  have hmask : not32 pageFrame = 2147487743 := by decide
  constructor
  · rw [pageAddr, pageSetFrame, pageSetProperty, pageSetProperty, or_div_4096, and_div_4096,
      or_div_4096, or_div_4096, hmask]
    simp only [pagePresent, pageWritable, Nat.reduceDiv, Nat.or_zero]
    rw [bit31_or (.inl (by omega)) (by omega)]
    omega
  · have hthree := or_one_two_mod e
    rw [pageSetFrame, or_mod_4, and_mod_4, hmask, pageSetProperty, pageSetProperty, hthree,
      show t % 4 = 0 by omega]
    rfl

/-! ### The view of a directory -/

/-- A directory and its tables: which slots have a table, which slots are writable or have none,
and the entry of every page, 0 where there is no table. -/
@[ext] structure View where
  present : ℕ → Prop
  writable : ℕ → Prop
  pte : ℕ → ℕ

namespace View

/-- Page `q` has the entry `e`. -/
def putEntry (V : View) (q e : ℕ) : View where
  present := V.present
  writable := V.writable
  pte := Function.update V.pte q e

/-- Slot `i` has a new table with the entries `f`. -/
def putTable (V : View) (i : ℕ) (f : ℕ → ℕ) : View where
  present j := V.present j ∨ j = i
  writable := V.writable
  pte q := if q / 1024 = i then f (q % 1024) else V.pte q

/-- Slot `i` has a new table, which is empty. -/
def addSlot (V : View) (i : ℕ) : View where
  present j := V.present j ∨ j = i
  writable := V.writable
  pte := V.pte

/-- `map_page` of page `q`. -/
def setPage (V : View) (q phys : ℕ) : View where
  present j := V.present j ∨ j = q / 1024
  writable := V.writable
  pte := Function.update V.pte q (newEntry (V.pte q) phys)

open Classical in
/-- `map_table` of slot `i`. -/
noncomputable def setTable (V : View) (i phys : ℕ) : View where
  present j := V.present j ∨ j = i
  writable := V.writable
  pte q := if q / 1024 = i ∧ ¬ V.present i then phys + 4096 * (q % 1024) + 3 else V.pte q

/-- A loop that walks through a range in steps. -/
def setRange (step : ℕ) (op : View → ℕ → ℕ → View) : ℕ → View → ℕ → ℕ → View
  | 0, V, _, _ => V
  | n + 1, V, phys, virt =>
      setRange step op n (op V phys virt) (w32 (phys + step)) (w32 (virt + step))

/-- `map_pages`. -/
def setPages : ℕ → View → ℕ → ℕ → View :=
  setRange 4096 fun V phys virt => V.setPage (virt / 4096) phys

/-- `map_tables`. -/
noncomputable def setTables : ℕ → View → ℕ → ℕ → View :=
  setRange 4194304 fun V phys virt => V.setTable (virt / 4194304) phys

theorem setRange_succ (step : ℕ) (op : View → ℕ → ℕ → View) (n : ℕ) (V : View) (phys virt : ℕ) :
    setRange step op (n + 1) V phys virt =
      setRange step op n (op V phys virt) (w32 (phys + step)) (w32 (virt + step)) := rfl

theorem setPages_succ (n : ℕ) (V : View) (phys virt : ℕ) : setPages (n + 1) V phys virt =
    setPages n (V.setPage (virt / 4096) phys) (w32 (phys + 4096)) (w32 (virt + 4096)) :=
  setRange_succ 4096 _ n V phys virt

theorem setTables_succ (n : ℕ) (V : View) (phys virt : ℕ) : setTables (n + 1) V phys virt =
    setTables n (V.setTable (virt / 4194304) phys) (w32 (phys + 4194304)) (w32 (virt + 4194304)) :=
  setRange_succ 4194304 _ n V phys virt

/-- A loop whose steps leave the flags alone leaves them alone. -/
theorem setRange_writable {step : ℕ} {op : View → ℕ → ℕ → View}
    (hop : ∀ V phys virt, (op V phys virt).writable = V.writable) (n : ℕ) (V : View)
    (phys virt : ℕ) : (setRange step op n V phys virt).writable = V.writable := by
  induction n generalizing V phys virt with
  | zero => rfl
  | succ n ih => rw [setRange_succ, ih, hop]

theorem setPages_writable (n : ℕ) (V : View) (phys virt : ℕ) :
    (setPages n V phys virt).writable = V.writable := by
  apply setRange_writable
  intro V phys virt
  rfl

theorem setTables_writable (n : ℕ) (V : View) (phys virt : ℕ) :
    (setTables n V phys virt).writable = V.writable := by
  apply setRange_writable
  intro V phys virt
  rfl

/-- A loop whose steps keep a slot keeps it. -/
theorem setRange_present {step : ℕ} {op : View → ℕ → ℕ → View} {i : ℕ}
    (hop : ∀ V phys virt, V.present i → (op V phys virt).present i) (n : ℕ) (V : View)
    (phys virt : ℕ) (hi : V.present i) : (setRange step op n V phys virt).present i := by
  induction n generalizing V phys virt with
  | zero => exact hi
  | succ n ih =>
      rw [setRange_succ]
      exact ih _ _ _ (hop V phys virt hi)

/-- Address `a` translates to `x`, present and writable. -/
def Maps (V : View) (a x : ℕ) : Prop :=
  V.present (a / 4194304) ∧ V.writable (a / 4194304) ∧ V.pte (a / 4096) % 4 = 3 ∧
    pageAddr (V.pte (a / 4096)) + a % 4096 = x

end View

/-- The view of the directory at `dir`. -/
def viewOf (dir : ℕ) (m : Mem) : View where
  present i := i < 1024 ∧ entryAt m dir i % 2 = 1
  writable i := i < 1024 ∧ entryAt m dir i % 2 = 1 → entryAt m dir i % 4 = 3
  pte q :=
    if q / 1024 < 1024 ∧ entryAt m dir (q / 1024) % 2 = 1 then
      entryAt m (pageAddr (entryAt m dir (q / 1024))) (q % 1024)
    else 0

/-- The table that slot `i` leads to, or the one that `alloc_block` will give it. -/
def tableOf (block : ℕ → ℕ) (dir : ℕ) (m : Mem) (i : ℕ) : ℕ :=
  if entryAt m dir i % 2 = 1 then pageAddr (entryAt m dir i) else block i

/-- The directory and the tables are frames of their own, those that `alloc_block` will return
included; an entry that is not present has bit 31 clear (the code never clears an entry of the
directory). -/
structure Directory (block : ℕ → ℕ) (dir : ℕ) (m : Mem) : Prop where
  dirFrame : IsFrame dir
  frame : ∀ i < 1024, IsFrame (tableOf block dir m i)
  ne_dir : ∀ i < 1024, tableOf block dir m i ≠ dir
  distinct : ∀ i < 1024, ∀ j < 1024, tableOf block dir m i = tableOf block dir m j → i = j
  clear : ∀ i < 1024, entryAt m dir i % 2 ≠ 1 → entryAt m dir i < 2147483648

section Writes

variable {block : ℕ → ℕ} {dir : ℕ} {m m₁ : Mem} {i j : ℕ}

theorem tableOf_present (hp : entryAt m dir i % 2 = 1) :
    tableOf block dir m i = pageAddr (entryAt m dir i) := if_pos hp

theorem tableOf_absent (hp : entryAt m dir i % 2 ≠ 1) : tableOf block dir m i = block i :=
  if_neg hp

/-- The assumptions are about the directory's entries only. -/
theorem Directory.congr (h : Directory block dir m)
    (htable : ∀ k < 1024, tableOf block dir m₁ k = tableOf block dir m k)
    (hclear : ∀ k < 1024, entryAt m₁ dir k % 2 ≠ 1 → entryAt m₁ dir k < 2147483648) :
    Directory block dir m₁ where
  dirFrame := h.dirFrame
  frame k hk := by
    rw [htable k hk]
    exact h.frame k hk
  ne_dir k hk := by
    rw [htable k hk]
    exact h.ne_dir k hk
  distinct k hk l hl heq := by
    rw [htable k hk, htable l hl] at heq
    exact h.distinct k hk l hl heq
  clear := hclear

/-- An entry of a table is written. -/
theorem writeEntry_stands (h : Directory block dir m) (hi : i < 1024) (hj : j < 1024)
    (hp : entryAt m dir i % 2 = 1) {v : ℕ} (hv : v < 4294967296) :
    Directory block dir (m.write32 (pageAddr (entryAt m dir i) + 4 * j) v) ∧
      viewOf dir (m.write32 (pageAddr (entryAt m dir i) + 4 * j) v) =
        (viewOf dir m).putEntry (1024 * i + j) v := by
  have hframe := h.frame i hi
  have hne := h.ne_dir i hi
  rw [tableOf_present hp] at hframe hne
  set m₁ := m.write32 (pageAddr (entryAt m dir i) + 4 * j) v with hm₁
  have hdir : ∀ k < 1024, entryAt m₁ dir k = entryAt m dir k :=
    fun k hk => entryAt_write_of_ne hframe h.dirFrame hj hk (.inl hne) v
  constructor
  · apply h.congr
    · intro k hk
      rw [tableOf, hdir k hk, tableOf]
    · intro k hk
      rw [hdir k hk]
      exact h.clear k hk
  · apply View.ext
    · funext k
      simp only [viewOf, View.putEntry]
      apply propext
      apply and_congr_right
      intro hk
      rw [hdir k hk]
    · funext k
      simp only [viewOf, View.putEntry]
      apply propext
      by_cases hk : k < 1024
      · rw [hdir k hk]
      · simp only [hk, false_and, false_imp_iff]
    · funext q
      simp only [viewOf, View.putEntry]
      by_cases hq : q / 1024 < 1024
      · rw [hdir _ hq]
        by_cases hself : q = 1024 * i + j
        · have hqi : q / 1024 = i := by omega
          have hqj : q % 1024 = j := by omega
          rw [hself, Function.update_self, ← hself, hqi, hqj, if_pos ⟨hi, hp⟩, entryAt_write,
            w32_of_lt hv]
        · rw [Function.update_of_ne hself]
          by_cases hqp : entryAt m dir (q / 1024) % 2 = 1
          · have hqframe := h.frame _ hq
            rw [tableOf_present hqp] at hqframe
            have hother : pageAddr (entryAt m dir i) ≠ pageAddr (entryAt m dir (q / 1024)) ∨
                j ≠ q % 1024 := by
              by_contra hboth
              push Not at hboth
              have hqi := h.distinct i hi _ hq (by
                rw [tableOf_present hp, tableOf_present hqp, hboth.1])
              omega
            rw [if_pos ⟨hq, hqp⟩, if_pos ⟨hq, hqp⟩,
              entryAt_write_of_ne hframe hqframe hj (Nat.mod_lt _ (by norm_num)) hother]
          · rw [if_neg (fun hqq => hqp hqq.2), if_neg (fun hqq => hqp hqq.2)]
      · rw [Function.update_of_ne (by omega), if_neg (fun hqq => hq hqq.1),
          if_neg (fun hqq => hq hqq.1)]

/-- Three changes of one word. -/
theorem modify_three {a : ℕ} {f g k : ℕ → ℕ} (hf : f (m.read32 a) < 4294967296)
    (hg : g (f (m.read32 a)) < 4294967296) :
    modify (modify (modify m a f) a g) a k = m.write32 a (k (g (f (m.read32 a)))) := by
  simp only [modify, Mem.read32_write32, Mem.write32_write32, w32_of_lt hf, w32_of_lt hg]

/-- What is written to a new table is seen in its entries and nowhere else. -/
theorem entryAt_of_only (hb : IsFrame i) (honly : Mem.Only (InFrame i) m m₁) {u : ℕ}
    (hu : IsFrame u) (hne : i ≠ u) (hj : j < 1024) : entryAt m₁ u j = entryAt m u j := by
  have hai := hb.aligned
  have hau := hu.aligned
  apply honly.read32
  intro x hx hin
  have hxu := inFrame_of_inWord hu hj hx
  unfold InFrame at hxu hin
  omega

/-- A table `t`, filled already in `m₁`, has been put into slot `i` of the directory. -/
structure Attached (dir t i : ℕ) (m m₁ m' : Mem) : Prop where
  addr : pageAddr (entryAt m' dir i) = t
  flags : entryAt m' dir i % 4 = 3
  slots : ∀ k < 1024, k ≠ i → entryAt m' dir k = entryAt m dir k
  content : ∀ j < 1024, entryAt m' t j = entryAt m₁ t j
  tables : ∀ u, IsFrame u → u ≠ dir → u ≠ t → ∀ j < 1024, entryAt m' u j = entryAt m u j

/-- The last lines of `map_page` and `map_table`. -/
theorem attachTable_attached (h : Directory block dir m) {virt : ℕ}
    (hp : entryAt m dir (pagedirIdx virt) % 2 ≠ 1)
    (honly : Mem.Only (InFrame (block (pagedirIdx virt))) m m₁) :
    Attached dir (block (pagedirIdx virt)) (pagedirIdx virt) m m₁
      (attachTable dir m₁ (block (pagedirIdx virt)) virt) := by
  have hi : pagedirIdx virt < 1024 := Nat.mod_lt _ (by norm_num)
  set i := pagedirIdx virt with hidx
  have hframe := h.frame i hi
  have hne := h.ne_dir i hi
  rw [tableOf_absent hp] at hframe hne
  have hfit := hframe.fits
  have hsame : ∀ k < 1024, entryAt m₁ dir k = entryAt m dir k :=
    fun k hk => entryAt_of_only hframe honly h.dirFrame hne hk
  -- the new entry of the directory
  obtain ⟨haddr, hflags⟩ := tableEntry_of_lt (h.clear i hi hp) hframe.aligned
    (show block i < 4294967296 by omega)
  have hlt : entryAt m dir i < 4294967296 := Mem.read32_lt m _
  have hpresent : pageSetProperty (entryAt m dir i) pagePresent < 4294967296 :=
    pageSetProperty_lt hlt (by decide)
  have hwritable : pageSetProperty (pageSetProperty (entryAt m dir i) pagePresent) pageWritable <
      4294967296 := pageSetProperty_lt hpresent (by decide)
  set e := pageSetFrame (pageSetProperty (pageSetProperty (entryAt m dir i) pagePresent)
    pageWritable) (block i) with he
  have helt : e < 4294967296 := pageSetFrame_lt hwritable (by omega)
  have hword : m₁.read32 (dir + 4 * i) = entryAt m dir i := hsame i hi
  have hwrite : attachTable dir m₁ (block i) virt = m₁.write32 (dir + 4 * i) e := by
    simp only [attachTable, ← hidx]
    rw [modify_three (by rw [hword]; exact hpresent) (by rw [hword]; exact hwritable), hword]
  have hself : entryAt (m₁.write32 (dir + 4 * i) e) dir i = e := by
    rw [entryAt_write, w32_of_lt helt]
  rw [hwrite]
  refine ⟨?_, ?_, ?_, ?_, ?_⟩
  · rw [hself, haddr]
  · rw [hself, hflags]
  · intro k hk hki
    rw [entryAt_write_of_ne h.dirFrame h.dirFrame hi hk (.inr hki.symm), hsame k hk]
  · intro j hj
    exact entryAt_write_of_ne h.dirFrame hframe hi hj (.inl hne.symm) e
  · intro u hu hud hut j hj
    rw [entryAt_write_of_ne h.dirFrame hu hi hj (.inl hud.symm),
      entryAt_of_only hframe honly hu hut.symm hj]

/-- The slot had no table before; the view shows the new one. -/
theorem Attached.stands {m' : Mem} (ha : Attached dir (block i) i m m₁ m')
    (h : Directory block dir m) (hi : i < 1024) (hp : entryAt m dir i % 2 ≠ 1) :
    Directory block dir m' ∧
      viewOf dir m' = (viewOf dir m).putTable i (entryAt m₁ (block i)) := by
  have hflags := ha.flags
  constructor
  · apply h.congr
    · intro k hk
      by_cases hki : k = i
      · rw [hki, tableOf_present (by omega), tableOf_absent hp, ha.addr]
      · rw [tableOf, ha.slots k hk hki, tableOf]
    · intro k hk
      by_cases hki : k = i
      · rw [hki]
        omega
      · rw [ha.slots k hk hki]
        exact h.clear k hk
  · apply View.ext
    · funext k
      simp only [viewOf, View.putTable]
      apply propext
      by_cases hki : k = i
      · rw [hki]
        simp only [hi, true_and, or_true, iff_true]
        omega
      · simp only [hki, or_false]
        apply and_congr_right
        intro hk
        rw [ha.slots k hk hki]
    · funext k
      simp only [viewOf, View.putTable]
      apply propext
      by_cases hk : k < 1024
      · by_cases hki : k = i
        · rw [hki]
          simp only [hi, hp, hflags, and_false, false_imp_iff, imp_true_iff]
        · rw [ha.slots k hk hki]
      · simp only [hk, false_and, false_imp_iff]
    · funext q
      simp only [viewOf, View.putTable]
      have hqj : q % 1024 < 1024 := Nat.mod_lt _ (by norm_num)
      by_cases hqi : q / 1024 = i
      · rw [if_pos hqi, hqi, if_pos ⟨hi, by omega⟩, ha.addr, ha.content _ hqj]
      · rw [if_neg hqi]
        by_cases hq : q / 1024 < 1024 ∧ entryAt m dir (q / 1024) % 2 = 1
        · have hqframe := h.frame _ hq.1
          have hqne := h.ne_dir _ hq.1
          have hother : tableOf block dir m (q / 1024) ≠ block i := by
            intro heq
            exact hqi (h.distinct _ hq.1 i hi (by rw [tableOf_absent hp, heq]))
          rw [tableOf_present hq.2] at hqframe hqne hother
          rw [ha.slots _ hq.1 hqi, if_pos hq, if_pos hq, ha.tables _ hqframe hqne hother _ hqj]
        · rw [if_neg hq, if_neg]
          rintro ⟨hqlt, hqp⟩
          rw [ha.slots _ hqlt hqi] at hqp
          exact hq ⟨hqlt, hqp⟩

/-- A new table, filled already, is put into a slot that had none. -/
theorem attachTable_stands (h : Directory block dir m) {virt : ℕ}
    (hp : entryAt m dir (pagedirIdx virt) % 2 ≠ 1)
    (honly : Mem.Only (InFrame (block (pagedirIdx virt))) m m₁) :
    Directory block dir (attachTable dir m₁ (block (pagedirIdx virt)) virt) ∧
      viewOf dir (attachTable dir m₁ (block (pagedirIdx virt)) virt) =
        (viewOf dir m).putTable (pagedirIdx virt) (entryAt m₁ (block (pagedirIdx virt))) :=
  (attachTable_attached h hp honly).stands h (Nat.mod_lt _ (by norm_num)) hp

end Writes

/-! ### One page and one table -/

section Calls

variable {block : ℕ → ℕ} {dir : ℕ} {m : Mem} {phys virt : ℕ}

theorem slot_eq (hvirt : virt < 4294967296) : pagedirIdx virt = virt / 4194304 := by
  unfold pagedirIdx
  omega

/-- The test of `map_page` and `map_table`. -/
theorem and_present_ne_iff (e : ℕ) : e &&& pagePresent ≠ pagePresent ↔ e % 2 ≠ 1 := by
  rw [and_present, pagePresent]

theorem setPage_stands (h : Directory block dir m) (hvirt : virt < 4294967296)
    (hphys : phys < 4294967296) (hp : entryAt m dir (pagedirIdx virt) % 2 = 1) :
    Directory block dir (setPage dir m phys virt) ∧
      viewOf dir (setPage dir m phys virt) = (viewOf dir m).setPage (virt / 4096) phys := by
  have hi : pagedirIdx virt < 1024 := Nat.mod_lt _ (by norm_num)
  have hj : pagetableIdx virt < 1024 := Nat.mod_lt _ (by norm_num)
  set t := pageAddr (entryAt m dir (pagedirIdx virt)) with ht
  set old := entryAt m t (pagetableIdx virt) with hold
  have hword : m.read32 (t + 4 * pagetableIdx virt) = old := rfl
  have hlt : old < 4294967296 := Mem.read32_lt m _
  have hwrite : setPage dir m phys virt =
      m.write32 (t + 4 * pagetableIdx virt) (newEntry old phys) := by
    simp only [setPage, ← ht]
    rw [modify_three (by rw [hword]; exact pageSetFrame_lt hlt hphys)
      (by rw [hword]; exact pageSetProperty_lt (pageSetFrame_lt hlt hphys) (by decide)), hword]
    rfl
  obtain ⟨hstands, hview⟩ := writeEntry_stands h hi hj hp (newEntry_lt hlt hphys)
  rw [hwrite]
  refine ⟨hstands, hview.trans ?_⟩
  have hslot : virt / 4096 / 1024 = pagedirIdx virt := by
    rw [slot_eq hvirt]
    omega
  have hold' : (viewOf dir m).pte (virt / 4096) = old := by
    simp only [viewOf]
    rw [hslot, if_pos ⟨hi, hp⟩]
    rfl
  rw [page_eq hvirt]
  apply View.ext
  · funext k
    simp only [View.putEntry, View.setPage]
    apply propext
    refine ⟨.inl, fun hk => ?_⟩
    rcases hk with hk | rfl
    · exact hk
    · rw [hslot]
      exact ⟨hi, hp⟩
  · rfl
  · simp only [View.putEntry, View.setPage, hold']

/-- The empty table of `map_page` changes no entry of a page. -/
theorem addTable_stands (h : Directory block dir m)
    (hp : entryAt m dir (pagedirIdx virt) % 2 ≠ 1) :
    Directory block dir (addTable dir m (block (pagedirIdx virt)) virt) ∧
      viewOf dir (addTable dir m (block (pagedirIdx virt)) virt) =
        (viewOf dir m).addSlot (pagedirIdx virt) := by
  have hi : pagedirIdx virt < 1024 := Nat.mod_lt _ (by norm_num)
  have hframe := h.frame _ hi
  rw [tableOf_absent hp] at hframe
  obtain ⟨hstands, hview⟩ := attachTable_stands h hp (only_zeroed hframe)
  refine ⟨hstands, hview.trans (View.ext rfl rfl ?_)⟩
  funext q
  simp only [View.putTable, View.addSlot]
  by_cases hq : q / 1024 = pagedirIdx virt
  · rw [if_pos hq, entryAt_zeroed hframe (Nat.mod_lt _ (by norm_num))]
    simp only [viewOf]
    rw [hq, if_neg (fun hqq => hp hqq.2)]
  · rw [if_neg hq]

/-- `map_page`. -/
theorem mapPage_stands (h : Directory block dir m) (hvirt : virt < 4294967296)
    (hphys : phys < 4294967296) :
    ∃ m', mapPage (block (pagedirIdx virt)) dir m phys virt = some m' ∧ Directory block dir m' ∧
      viewOf dir m' = (viewOf dir m).setPage (virt / 4096) phys := by
  have hi : pagedirIdx virt < 1024 := Nat.mod_lt _ (by norm_num)
  unfold mapPage
  by_cases hp : entryAt m dir (pagedirIdx virt) % 2 = 1
  · rw [if_neg (by rw [and_present_ne_iff]; exact not_not.mpr hp)]
    obtain ⟨hstands, hview⟩ := setPage_stands h hvirt hphys hp
    exact ⟨_, rfl, hstands, hview⟩
  · have hframe := h.frame _ hi
    rw [tableOf_absent hp] at hframe
    rw [if_pos ((and_present_ne_iff _).mpr hp), if_neg hframe.pos.ne']
    obtain ⟨hstands, hview⟩ := addTable_stands h hp
    have hpresent : (viewOf dir (addTable dir m (block (pagedirIdx virt)) virt)).present
        (pagedirIdx virt) := by
      rw [hview]
      exact .inr rfl
    obtain ⟨hstands', hview'⟩ := setPage_stands hstands hvirt hphys hpresent.2
    have hslot : virt / 4096 / 1024 = pagedirIdx virt := by
      rw [slot_eq hvirt]
      omega
    refine ⟨_, rfl, hstands', hview'.trans ?_⟩
    rw [hview, ← hslot]
    apply View.ext
    · funext k
      simp only [View.setPage, View.addSlot, or_assoc, or_self]
    · rfl
    · rfl

/-- The loop of `map_table` stays in the table and fills the entries from that of `virt` on. -/
theorem fillTable_stands {t : ℕ} (ht : IsFrame t) (n : ℕ) (m : Mem) (frame virt : ℕ)
    (haligned : frame % 4096 = 0) (hframe : frame + 4096 * n ≤ 4294967296)
    (hvirt : virt < 4294967296) (hn : pagetableIdx virt + n ≤ 1024) :
    Mem.Only (InFrame t) m (fillTable t n m frame virt) ∧
      ∀ j < 1024, entryAt (fillTable t n m frame virt) t j =
        if pagetableIdx virt ≤ j ∧ j < pagetableIdx virt + n then
          frame + 4096 * (j - pagetableIdx virt) + 3
        else entryAt m t j := by
  induction n generalizing m frame virt with
  | zero =>
      refine ⟨Mem.Only.refl _ _, fun j hj => ?_⟩
      rw [if_neg (by omega)]
      rfl
  | succ n ih =>
      have hidx : pagetableIdx virt < 1024 := Nat.mod_lt _ (by norm_num)
      have hidx' : 0 < n → pagetableIdx (w32 (virt + 4096)) = pagetableIdx virt + 1 := by
        intro hpos
        simp only [pagetableIdx, w32] at hn ⊢
        omega
      have hnext : pagetableIdx (w32 (virt + 4096)) < 1024 := Nat.mod_lt _ (by norm_num)
      have hframe' : w32 (frame + 4096) % 4096 = 0 ∧ w32 (frame + 4096) + 4096 * n ≤ 4294967296 ∧
          (0 < n → w32 (frame + 4096) = frame + 4096) := by
        simp only [w32]
        omega
      simp only [fillTable]
      rw [tableEntry haligned]
      set m₁ := m.write32 (t + 4 * pagetableIdx virt) (frame + 3) with hm₁
      obtain ⟨honly, hentries⟩ := ih m₁ (w32 (frame + 4096)) (w32 (virt + 4096)) hframe'.1
        hframe'.2.1 (w32_lt _) (by omega)
      have hfirst : Mem.Only (InFrame t) m m₁ :=
        (Mem.Only.refl _ m).write32 _ fun x hx => inFrame_of_inWord ht hidx hx
      refine ⟨hfirst.trans honly, fun j hj => ?_⟩
      rw [hentries j hj]
      by_cases hself : j = pagetableIdx virt
      · rw [hself, if_neg (by omega), if_pos (by omega), entryAt_write, w32_of_lt (by omega)]
        omega
      · rw [entryAt_write_of_ne ht ht hidx hj (.inr (Ne.symm hself))]
        by_cases hin : pagetableIdx virt ≤ j ∧ j < pagetableIdx virt + (n + 1)
        · rw [if_pos hin, if_pos (by omega), hidx' (by omega), hframe'.2.2 (by omega)]
          omega
        · rw [if_neg hin, if_neg (by omega)]

/-- `map_table`. -/
theorem mapTable_stands (h : Directory block dir m) (hvirt : virt < 4294967296)
    (hvaligned : virt % 4194304 = 0) (hphys : phys < 4294967296) (hpaligned : phys % 4194304 = 0) :
    ∃ m', mapTable (block (pagedirIdx virt)) dir m phys virt = some m' ∧ Directory block dir m' ∧
      viewOf dir m' = (viewOf dir m).setTable (virt / 4194304) phys := by
  have hi : pagedirIdx virt < 1024 := Nat.mod_lt _ (by norm_num)
  unfold mapTable
  rw [← slot_eq hvirt]
  by_cases hp : entryAt m dir (pagedirIdx virt) % 2 = 1
  · rw [if_neg (by rw [and_present_ne_iff]; exact not_not.mpr hp)]
    have hpresent : (viewOf dir m).present (pagedirIdx virt) := ⟨hi, hp⟩
    refine ⟨m, rfl, h, View.ext ?_ rfl ?_⟩
    · funext k
      simp only [View.setTable]
      apply propext
      refine ⟨.inl, fun hk => ?_⟩
      rcases hk with hk | rfl
      · exact hk
      · exact hpresent
    · funext q
      simp only [View.setTable]
      rw [if_neg (fun hq => hq.2 hpresent)]
  · have hframe := h.frame _ hi
    rw [tableOf_absent hp] at hframe
    rw [if_pos ((and_present_ne_iff _).mpr hp), if_neg hframe.pos.ne']
    have hzero : pagetableIdx virt = 0 := by
      unfold pagetableIdx
      omega
    obtain ⟨honly, hentries⟩ := fillTable_stands hframe 1024
      (memset m (block (pagedirIdx virt)) 0 4096) phys virt (by omega) (by omega) hvirt (by omega)
    obtain ⟨hstands, hview⟩ := attachTable_stands h hp ((only_zeroed hframe).trans honly)
    refine ⟨_, rfl, hstands, hview.trans ?_⟩
    have habsent : ¬ (viewOf dir m).present (pagedirIdx virt) := fun hpresent => hp hpresent.2
    apply View.ext
    · rfl
    · rfl
    · funext q
      have hq : q % 1024 < 1024 := Nat.mod_lt _ (by norm_num)
      simp only [View.setTable, View.putTable, habsent, not_false_eq_true, and_true]
      by_cases hqi : q / 1024 = pagedirIdx virt
      · rw [if_pos hqi, if_pos hqi, hentries _ hq, if_pos (by omega), hzero, Nat.sub_zero]
      · rw [if_neg hqi, if_neg hqi]

end Calls

/-! ### The loops -/

section Loops

variable {block : ℕ → ℕ} {dir : ℕ}

/-- `map_pages`. -/
theorem mapPages_stands (n : ℕ) (m : Mem) (phys virt : ℕ) (h : Directory block dir m)
    (hphys : phys < 4294967296) (hvirt : virt < 4294967296) :
    ∃ m', mapPages block dir n m phys virt = some m' ∧ Directory block dir m' ∧
      viewOf dir m' = View.setPages n (viewOf dir m) phys virt := by
  induction n generalizing m phys virt with
  | zero => exact ⟨m, rfl, h, rfl⟩
  | succ n ih =>
      obtain ⟨m₁, hrun, hstands, hview⟩ := mapPage_stands h hvirt hphys
      obtain ⟨m', hrun', hstands', hview'⟩ := ih m₁ (w32 (phys + 4096)) (w32 (virt + 4096))
        hstands (w32_lt _) (w32_lt _)
      refine ⟨m', ?_, hstands', ?_⟩
      · rw [mapPages_succ, hrun, Option.bind_some, hrun']
      · rw [hview', hview, View.setPages_succ]

theorem w32_step_aligned {a : ℕ} (ha : a % 4194304 = 0) : w32 (a + 4194304) % 4194304 = 0 := by
  simp only [w32]
  omega

/-- `map_tables`. -/
theorem mapTables_stands (n : ℕ) (m : Mem) (phys virt : ℕ) (h : Directory block dir m)
    (hphys : phys < 4294967296) (hpaligned : phys % 4194304 = 0) (hvirt : virt < 4294967296)
    (hvaligned : virt % 4194304 = 0) :
    ∃ m', mapTables block dir n m phys virt = some m' ∧ Directory block dir m' ∧
      viewOf dir m' = View.setTables n (viewOf dir m) phys virt := by
  induction n generalizing m phys virt with
  | zero => exact ⟨m, rfl, h, rfl⟩
  | succ n ih =>
      obtain ⟨m₁, hrun, hstands, hview⟩ := mapTable_stands h hvirt hvaligned hphys hpaligned
      obtain ⟨m', hrun', hstands', hview'⟩ := ih m₁ (w32 (phys + 4194304))
        (w32 (virt + 4194304)) hstands (w32_lt _) (w32_step_aligned hpaligned) (w32_lt _)
        (w32_step_aligned hvaligned)
      refine ⟨m', ?_, hstands', ?_⟩
      · rw [mapTables_succ, hrun, Option.bind_some, hrun']
      · rw [hview', hview, View.setTables_succ]

/-- From the page of `virt` on, page `q` comes after so many pages. -/
def pagesFrom (virt q : ℕ) : ℕ := (q + 1048576 - virt / 4096) % 1048576

/-- From the slot of `virt` on, slot `i` comes after so many slots. -/
def slotsFrom (virt i : ℕ) : ℕ := (i + 1024 - virt / 4194304) % 1024

theorem pagesFrom_next {virt q : ℕ} (hvirt : virt < 4294967296) (hq : q < 1048576) :
    q = virt / 4096 ∧ pagesFrom virt q = 0 ∧ pagesFrom (w32 (virt + 4096)) q = 1048575 ∨
      q ≠ virt / 4096 ∧ pagesFrom virt q = pagesFrom (w32 (virt + 4096)) q + 1 := by
  simp only [pagesFrom, w32]
  omega

theorem slotsFrom_next {virt i : ℕ} (hvirt : virt < 4294967296) (hi : i < 1024) :
    i = virt / 4194304 ∧ slotsFrom virt i = 0 ∧ slotsFrom (w32 (virt + 4194304)) i = 1023 ∨
      i ≠ virt / 4194304 ∧ slotsFrom virt i = slotsFrom (w32 (virt + 4194304)) i + 1 := by
  simp only [slotsFrom, w32]
  omega

/-- Counting on from the next address. -/
theorem w32_step (a s k : ℕ) : w32 (w32 (a + s) + s * k) = w32 (a + s * (k + 1)) := by
  have hsum : a + s * (k + 1) = a + s + s * k := by ring
  rw [hsum]
  simp only [w32]
  omega

namespace View

/-- The pages of the range have a table. -/
theorem setPages_present (n : ℕ) (V : View) (phys virt : ℕ) (hvirt : virt < 4294967296) {q : ℕ}
    (hq : q < 1048576) (hin : pagesFrom virt q < n) :
    (setPages n V phys virt).present (q / 1024) := by
  induction n generalizing V phys virt with
  | zero => omega
  | succ n ih =>
      rw [setPages_succ]
      rcases pagesFrom_next hvirt hq with ⟨hself, -, -⟩ | ⟨-, hnext⟩
      · apply setRange_present fun _ _ _ hi => Or.inl hi
        rw [hself]
        exact .inr rfl
      · exact ih _ _ _ (w32_lt _) (by omega)

/-- They have new entries, and the other pages keep theirs. -/
theorem setPages_pte (n : ℕ) (V : View) (phys virt : ℕ) (hn : n ≤ 1048576)
    (hvirt : virt < 4294967296) (hphys : phys < 4294967296) {q : ℕ} (hq : q < 1048576) :
    (setPages n V phys virt).pte q =
      if pagesFrom virt q < n then newEntry (V.pte q) (w32 (phys + 4096 * pagesFrom virt q))
      else V.pte q := by
  induction n generalizing V phys virt with
  | zero =>
      rw [if_neg (by omega)]
      rfl
  | succ n ih =>
      rw [setPages_succ, ih _ _ _ (by omega) (w32_lt _) (w32_lt _)]
      rcases pagesFrom_next hvirt hq with ⟨hself, hzero, hlast⟩ | ⟨hne, hnext⟩
      · rw [if_neg (by omega), if_pos (by omega), hzero, Nat.mul_zero, Nat.add_zero,
          w32_of_lt hphys, hself]
        exact Function.update_self _ _ _
      · have hold : (V.setPage (virt / 4096) phys).pte q = V.pte q := Function.update_of_ne hne _ _
        rw [hold, w32_step, ← hnext]
        by_cases hin : pagesFrom virt q < n + 1
        · rw [if_pos (by omega), if_pos hin]
        · rw [if_neg (by omega), if_neg hin]

/-- The slots of the range have a table, and no other slot gets one. -/
theorem setTables_present (n : ℕ) (V : View) (phys virt : ℕ) (hn : n ≤ 1024)
    (hvirt : virt < 4294967296) {i : ℕ} (hi : i < 1024) :
    (setTables n V phys virt).present i ↔ V.present i ∨ slotsFrom virt i < n := by
  induction n generalizing V phys virt with
  | zero =>
      simp only [Nat.not_lt_zero, or_false]
      rfl
  | succ n ih =>
      rw [setTables_succ, ih _ _ _ (by omega) (w32_lt _)]
      have hone : (V.setTable (virt / 4194304) phys).present i ↔
          V.present i ∨ i = virt / 4194304 := Iff.rfl
      rw [hone, or_assoc]
      apply or_congr_right
      rcases slotsFrom_next hvirt hi with ⟨hself, hzero, -⟩ | ⟨hne, hnext⟩
      · omega
      · omega

open Classical in
/-- The new tables are full, and the pages of the other slots keep their entries. -/
theorem setTables_pte (n : ℕ) (V : View) (phys virt : ℕ) (hn : n ≤ 1024)
    (hvirt : virt < 4294967296) (hphys : phys < 4294967296) {q : ℕ} (hq : q < 1048576) :
    (setTables n V phys virt).pte q =
      if slotsFrom virt (q / 1024) < n ∧ ¬ V.present (q / 1024) then
        w32 (phys + 4194304 * slotsFrom virt (q / 1024)) + 4096 * (q % 1024) + 3
      else V.pte q := by
  induction n generalizing V phys virt with
  | zero =>
      rw [if_neg (by omega)]
      rfl
  | succ n ih =>
      rw [setTables_succ, ih _ _ _ (by omega) (w32_lt _) (w32_lt _)]
      have hpresent : (V.setTable (virt / 4194304) phys).present (q / 1024) ↔
          V.present (q / 1024) ∨ q / 1024 = virt / 4194304 := Iff.rfl
      have hpte : (V.setTable (virt / 4194304) phys).pte q =
          if q / 1024 = virt / 4194304 ∧ ¬ V.present (virt / 4194304) then
            phys + 4096 * (q % 1024) + 3
          else V.pte q := rfl
      rw [hpresent, hpte, w32_step]
      rcases slotsFrom_next hvirt (show q / 1024 < 1024 by omega) with
        ⟨hself, hzero, -⟩ | ⟨hne, hnext⟩
      · have hfirst : w32 (phys + 4194304 * 0) = phys := by
          rw [Nat.mul_zero, Nat.add_zero, w32_of_lt hphys]
        rw [if_neg (fun hnot => hnot.2 (.inr hself)), hzero, hfirst, hself]
        simp only [true_and, Nat.zero_lt_succ]
      · simp only [hne, or_false, false_and, if_false]
        rw [← hnext]
        by_cases hin : slotsFrom virt (q / 1024) < n + 1
        · have hin' : slotsFrom (w32 (virt + 4194304)) (q / 1024) < n := by omega
          simp only [hin, hin', true_and]
        · have hin' : ¬ slotsFrom (w32 (virt + 4194304)) (q / 1024) < n := by omega
          simp only [hin, hin', false_and, if_false]

end View

end Loops

/-! ### What is covered -/

section Covers

variable {block : ℕ → ℕ} {dir : ℕ} {m m' : Mem} {sz phys virt : ℕ}

/-- Every address of the range translates to its place, present and writable. -/
def Covers (dir : ℕ) (m : Mem) (phys virt sz : ℕ) : Prop :=
  ∀ d < sz, translate m dir (virt + d) = some (phys + d, pagePresent ||| pageWritable)

/-- Both flags of two entries. -/
theorem flags_eq_iff (a b : ℕ) :
    a &&& b &&& (pagePresent ||| pageWritable) = pagePresent ||| pageWritable ↔
      a % 4 = 3 ∧ b % 4 = 3 := by
  have hthree : pagePresent ||| pageWritable = 2 ^ 2 - 1 := by decide
  rw [hthree, Nat.and_two_pow_sub_one_eq_mod, show 2 ^ 2 = 4 by norm_num, and_mod_4]
  have ha : a % 4 < 4 := Nat.mod_lt _ (by norm_num)
  have hb : b % 4 < 4 := Nat.mod_lt _ (by norm_num)
  generalize a % 4 = x at ha
  generalize b % 4 = y at hb
  interval_cases x <;> interval_cases y <;> decide

/-- What an address translates to can be read off the view. -/
theorem translate_iff {a x : ℕ} (ha : a < 4294967296) :
    translate m dir a = some (x, pagePresent ||| pageWritable) ↔ (viewOf dir m).Maps a x := by
  have hi : a / 4194304 < 1024 := by omega
  have hslot : a / 4096 / 1024 = a / 4194304 := by omega
  have hidx : a / 4096 % 1024 = pagetableIdx a := rfl
  rw [translate, walk, slot_eq ha]
  simp only [View.Maps, viewOf, hslot, hidx, hi, true_and, and_present]
  by_cases hpde : entryAt m dir (a / 4194304) % 2 = 1
  · rw [if_neg (by omega), if_pos hpde]
    simp only [hpde, true_imp_iff, true_and]
    set pte := entryAt m (pageAddr (entryAt m dir (a / 4194304))) (pagetableIdx a) with hpte
    by_cases hpresent : pte % 2 = 0
    · rw [if_pos hpresent]
      simp only [Option.map_none, reduceCtorEq, false_iff]
      omega
    · rw [if_neg hpresent]
      simp only [Option.map_some, Option.some.injEq, Prod.mk.injEq]
      rw [flags_eq_iff]
      tauto
  · rw [if_pos (by omega)]
    simp only [Option.map_none, reduceCtorEq, hpde, false_and]

theorem sizeToPages_eq (hsz : sz ≤ 2147483648) : sizeToPages sz = sz / 4096 + 1 := by
  have hres : w32 (sz / 4096 * 4096 + 0x1000) / 4096 = sz / 4096 + 1 := by
    rw [w32_of_lt (by omega)]
    omega
  rw [sizeToPages]
  simp only [hres]
  rw [if_neg (by omega)]

theorem sizeToTables_eq (hsz : sz ≤ 2147483648) :
    sizeToTables sz = max 1 ((sz / 4096 + 1) / 1024) := by
  have hres : w32 (0x1000 + sz / 4096 * 4096) / 4194304 = (sz / 4096 + 1) / 1024 := by
    rw [w32_of_lt (by omega)]
    omega
  rw [sizeToTables]
  simp only [hres]
  by_cases hzero : (sz / 4096 + 1) / 1024 = 0
  · rw [if_pos hzero, hzero]
    rfl
  · rw [if_neg hzero, Nat.max_eq_right (by omega)]

/-- `map_page` can give the address a writable page: where there is a table already, its slot is
writable, and the old entry has bit 31 clear or the new frame has it too. -/
def PageSuits (dir : ℕ) (m : Mem) (phys virt : ℕ) : Prop :=
  entryAt m dir (pagedirIdx virt) &&& pagePresent = pagePresent →
    entryAt m dir (pagedirIdx virt) &&& pageWritable = pageWritable ∧
      (entryAt m (pageAddr (entryAt m dir (pagedirIdx virt))) (pagetableIdx virt) < 2147483648 ∨
        2147483648 ≤ phys)

/-- The flag of a slot that is present. -/
theorem and_writable_iff {e : ℕ} (he : e % 2 = 1) :
    e &&& pageWritable = pageWritable ↔ e % 4 = 3 := by
  have hbit : e &&& 2 ^ 1 = (e.testBit 1).toNat * 2 ^ 1 := Nat.and_two_pow e 1
  have htwo : pageWritable = 2 ^ 1 := by decide
  rw [htwo, hbit, Nat.testBit_eq_decide_div_mod_eq]
  by_cases hodd : e / 2 ^ 1 % 2 = 1
  · simp only [hodd, decide_true, Bool.toNat_true, Nat.one_mul, true_iff]
    omega
  · simp only [hodd, decide_false, Bool.toNat_false, Nat.zero_mul]
    omega

/-- The condition on the view. -/
theorem pageSuits_iff (hvirt : virt < 4294967296) :
    PageSuits dir m phys virt ↔ (viewOf dir m).writable (virt / 4194304) ∧
      ((viewOf dir m).pte (virt / 4096) < 2147483648 ∨ 2147483648 ≤ phys) := by
  have hi : virt / 4194304 < 1024 := by omega
  have hslot : virt / 4096 / 1024 = virt / 4194304 := by omega
  have hidx : virt / 4096 % 1024 = pagetableIdx virt := rfl
  rw [PageSuits, slot_eq hvirt]
  simp only [viewOf, hslot, hidx, hi, true_and, pagePresent, Nat.and_one_is_mod]
  by_cases hp : entryAt m dir (virt / 4194304) % 2 = 1
  · simp only [hp, true_imp_iff, if_true]
    rw [and_writable_iff hp]
  · simp only [hp, false_imp_iff, if_false, true_and]
    simp only [Nat.ofNat_pos, true_or]

theorem viewOf_pte_lt (dir : ℕ) (m : Mem) (q : ℕ) : (viewOf dir m).pte q < 4294967296 := by
  simp only [viewOf]
  split_ifs
  · exact Mem.read32_lt m _
  · norm_num

/-- After `map_pages`, one address. -/
theorem setPages_maps_iff {n d : ℕ} (hphys : phys % 4194304 = 0) (hvirt : virt % 4194304 = 0)
    (hp : phys + d < 4294967296) (hv : virt + d < 4294967296) (hn : n ≤ 1048576)
    (hd : d / 4096 < n) :
    (View.setPages n (viewOf dir m) phys virt).Maps (virt + d) (phys + d) ↔
      PageSuits dir m (phys + d) (virt + d) := by
  have hq : (virt + d) / 4096 < 1048576 := by omega
  have hsteps : pagesFrom virt ((virt + d) / 4096) = d / 4096 := by
    unfold pagesFrom
    omega
  have hslot : (virt + d) / 4194304 = (virt + d) / 4096 / 1024 := by omega
  have hpresent := View.setPages_present n (viewOf dir m) phys virt (by omega) hq (by omega)
  have hwritable := View.setPages_writable n (viewOf dir m) phys virt
  have hframe : w32 (phys + 4096 * (d / 4096)) = phys + 4096 * (d / 4096) := w32_of_lt (by omega)
  have hpte := View.setPages_pte n (viewOf dir m) phys virt hn (by omega) (by omega) hq
  rw [hsteps, if_pos hd, hframe] at hpte
  rw [pageSuits_iff hv, View.Maps, hwritable, hpte, hslot, newEntry_mod]
  have haddr := pageAddr_newEntry (viewOf_pte_lt dir m ((virt + d) / 4096))
    (show (phys + 4096 * (d / 4096)) % 4096 = 0 by omega) (by omega)
  have hplace : ∀ t, t + (virt + d) % 4096 = phys + d ↔ t = phys + 4096 * (d / 4096) := by omega
  have hkeep : 2147483648 ≤ phys + 4096 * (d / 4096) ↔ 2147483648 ≤ phys + d := by omega
  rw [hplace, haddr, hkeep]
  simp only [hpresent, true_and]

/-- What `map_pages` covers. -/
theorem mapPages_covers_iff (h : Directory block dir m) (hpos : 0 < sz) (hsz : sz ≤ 2147483648)
    (hphys : phys % 4194304 = 0) (hvirt : virt % 4194304 = 0) (hp : phys + sz ≤ 4294967296)
    (hv : virt + sz ≤ 4294967296) :
    (∃ m', mapPages block dir (sizeToPages sz) m phys virt = some m' ∧ Covers dir m' phys virt sz) ↔
      ∀ d < sz, PageSuits dir m (phys + d) (virt + d) := by
  obtain ⟨m', hrun, -, hview⟩ := mapPages_stands (sizeToPages sz) m phys virt h (by omega)
    (by omega)
  have hone : ∀ d < sz, translate m' dir (virt + d) =
      some (phys + d, pagePresent ||| pageWritable) ↔ PageSuits dir m (phys + d) (virt + d) := by
    intro d hd
    rw [translate_iff (by omega), hview, sizeToPages_eq hsz]
    exact setPages_maps_iff hphys hvirt (by omega) (by omega) (by omega) (by omega)
  rw [hrun]
  simp only [Option.some.injEq, exists_eq_left', Covers]
  exact forall₂_congr hone

/-- `map_table` gives the address a table of its own, or the address translates to its place
already: the tables that are counted are those of the size, rounded up to the next page and then
down, and at least one. -/
def TableSuits (dir : ℕ) (m : Mem) (phys virt sz d : ℕ) : Prop :=
  entryAt m dir (pagedirIdx (virt + d)) &&& pagePresent ≠ pagePresent ∧
      d / 4194304 < max 1 ((sz / 4096 + 1) / 1024) ∨
    translate m dir (virt + d) = some (phys + d, pagePresent ||| pageWritable)

/-- After `map_tables`, one address. -/
theorem setTables_maps_iff {n d : ℕ} (hphys : phys % 4194304 = 0) (hvirt : virt % 4194304 = 0)
    (hp : phys + d < 4294967296) (hv : virt + d < 4294967296) (hn : n ≤ 1024) :
    (View.setTables n (viewOf dir m) phys virt).Maps (virt + d) (phys + d) ↔
      ¬ (viewOf dir m).present ((virt + d) / 4194304) ∧ d / 4194304 < n ∨
        (viewOf dir m).Maps (virt + d) (phys + d) := by
  have hi : (virt + d) / 4194304 < 1024 := by omega
  have hslot : (virt + d) / 4096 / 1024 = (virt + d) / 4194304 := by omega
  have hsteps : slotsFrom virt ((virt + d) / 4194304) = d / 4194304 := by
    unfold slotsFrom
    omega
  have hpresent := View.setTables_present n (viewOf dir m) phys virt hn (by omega) hi
  have hwritable := View.setTables_writable n (viewOf dir m) phys virt
  have hframe : w32 (phys + 4194304 * (d / 4194304)) = phys + 4194304 * (d / 4194304) :=
    w32_of_lt (by omega)
  have hpte := View.setTables_pte n (viewOf dir m) phys virt hn (by omega) (by omega)
    (show (virt + d) / 4096 < 1048576 by omega)
  rw [hslot, hsteps, hframe] at hpte
  rw [hsteps] at hpresent
  simp only [View.Maps, hwritable, hpresent]
  by_cases hold : (viewOf dir m).present ((virt + d) / 4194304)
  · -- the table is there, and keeps its entries
    rw [if_neg (fun hnot => hnot.2 hold)] at hpte
    rw [hpte]
    simp only [hold, true_or, true_and, not_true_eq_false, false_and, false_or]
  · have hfree : (viewOf dir m).writable ((virt + d) / 4194304) := fun hin => absurd hin hold
    simp only [hold, false_or, false_and, or_false, not_false_eq_true, true_and, hfree]
    constructor
    · exact fun hmaps => hmaps.1
    · intro hin
      rw [if_pos ⟨hin, hold⟩] at hpte
      rw [hpte]
      unfold pageAddr
      omega

/-- What `map_tables` covers. -/
theorem mapTables_covers_iff (h : Directory block dir m) (hpos : 0 < sz) (hsz : sz ≤ 2147483648)
    (hphys : phys % 4194304 = 0) (hvirt : virt % 4194304 = 0) (hp : phys + sz ≤ 4294967296)
    (hv : virt + sz ≤ 4294967296) :
    (∃ m', mapTables block dir (sizeToTables sz) m phys virt = some m' ∧
        Covers dir m' phys virt sz) ↔ ∀ d < sz, TableSuits dir m phys virt sz d := by
  obtain ⟨m', hrun, -, hview⟩ := mapTables_stands (sizeToTables sz) m phys virt h (by omega) hphys
    (by omega) hvirt
  have hone : ∀ d < sz, translate m' dir (virt + d) =
      some (phys + d, pagePresent ||| pageWritable) ↔ TableSuits dir m phys virt sz d := by
    intro d hd
    have hi : (virt + d) / 4194304 < 1024 := by omega
    have habsent : ¬ (viewOf dir m).present ((virt + d) / 4194304) ↔
        entryAt m dir (pagedirIdx (virt + d)) &&& pagePresent ≠ pagePresent := by
      rw [and_present_ne_iff, slot_eq (by omega)]
      simp only [viewOf, hi, true_and]
    rw [translate_iff (by omega), hview, sizeToTables_eq hsz, TableSuits, translate_iff (by omega),
      ← habsent]
    exact setTables_maps_iff hphys hvirt (by omega) (by omega) (by omega)
  rw [hrun]
  simp only [Option.some.injEq, exists_eq_left', Covers]
  exact forall₂_congr hone

/-- A range of at most 2 GiB, aligned to tables, is covered by `map_pages` exactly if every page of
it suits, and by `map_tables` exactly if every address of it suits. -/
theorem covers_iff (h : Directory block dir m) (hpos : 0 < sz) (hsz : sz ≤ 2147483648)
    (hphys : phys % 4194304 = 0) (hvirt : virt % 4194304 = 0) (hp : phys + sz ≤ 4294967296)
    (hv : virt + sz ≤ 4294967296) :
    ((∃ m', mapPages block dir (sizeToPages sz) m phys virt = some m' ∧
        Covers dir m' phys virt sz) ↔ ∀ d < sz, PageSuits dir m (phys + d) (virt + d)) ∧
      ((∃ m', mapTables block dir (sizeToTables sz) m phys virt = some m' ∧
        Covers dir m' phys virt sz) ↔ ∀ d < sz, TableSuits dir m phys virt sz d) :=
  ⟨mapPages_covers_iff h hpos hsz hphys hvirt hp hv,
    mapTables_covers_iff h hpos hsz hphys hvirt hp hv⟩

end Covers

/-! ### An empty directory -/

/-- An empty directory at 4096, and a frame for each of its tables behind it. -/
theorem directory_sparse : Directory (fun i => 8192 + 4096 * i) 4096 sparseMem := by
  have habsent : ∀ i < 1024, tableOf (fun i => 8192 + 4096 * i) 4096 sparseMem i =
      8192 + 4096 * i := by
    intro i hi
    exact tableOf_absent (by rw [sparseMem_zero i hi]; norm_num)
  refine ⟨isFrame_4096, ?_, ?_, ?_, ?_⟩
  · intro i hi
    rw [habsent i hi]
    exact ⟨by omega, by omega, by omega⟩
  · intro i hi
    rw [habsent i hi]
    omega
  · intro i hi j hj heq
    rw [habsent i hi, habsent j hj] at heq
    omega
  · intro i hi _
    rw [sparseMem_zero i hi]
    norm_num

theorem sparse_absent (virt : ℕ) :
    entryAt sparseMem 4096 (pagedirIdx virt) &&& pagePresent ≠ pagePresent := by
  have hi : pagedirIdx virt < 1024 := Nat.mod_lt _ (by norm_num)
  rw [sparseMem_zero _ hi, Nat.zero_and]
  decide

/-- The theorem for one table of it. -/
theorem covers_iff_table :
    (∃ m', mapPages (fun i => 8192 + 4096 * i) 4096 (sizeToPages 4194304) sparseMem 8388608
        4194304 = some m' ∧ Covers 4096 m' 8388608 4194304 4194304) ∧
      ∃ m', mapTables (fun i => 8192 + 4096 * i) 4096 (sizeToTables 4194304) sparseMem 8388608
        4194304 = some m' ∧ Covers 4096 m' 8388608 4194304 4194304 := by
  obtain ⟨hpages, htables⟩ := @covers_iff _ 4096 sparseMem 4194304 8388608 4194304
    directory_sparse (by norm_num) (by norm_num) (by norm_num) (by norm_num) (by norm_num)
    (by norm_num)
  refine ⟨hpages.mpr fun d _ hpresent => absurd hpresent (sparse_absent _), htables.mpr ?_⟩
  intro d hd
  exact .inl ⟨sparse_absent _, by omega⟩

/-- `size_to_tables` rounds down: one page more than a table is not covered. -/
theorem mapTables_short :
    ¬ ∀ (block : ℕ → ℕ) (dir : ℕ) (m : Mem) (sz phys virt : ℕ), Directory block dir m → 0 < sz →
      sz ≤ 2147483648 → phys % 4194304 = 0 → virt % 4194304 = 0 → phys + sz ≤ 4294967296 →
      virt + sz ≤ 4294967296 →
      (∃ m', mapPages block dir (sizeToPages sz) m phys virt = some m' ∧
        Covers dir m' phys virt sz) ∧
      ∃ m', mapTables block dir (sizeToTables sz) m phys virt = some m' ∧
        Covers dir m' phys virt sz := by
  intro hclaim
  obtain ⟨-, hcovers⟩ := hclaim _ 4096 sparseMem 4198400 0 0 directory_sparse (by norm_num)
    (by norm_num) (by norm_num) (by norm_num) (by norm_num) (by norm_num)
  rw [mapTables_covers_iff directory_sparse (by norm_num) (by norm_num) (by norm_num)
    (by norm_num) (by norm_num) (by norm_num)] at hcovers
  rcases hcovers 4194304 (by norm_num) with ⟨-, hin⟩ | hold
  · omega
  · rw [translate_iff (by norm_num)] at hold
    exact absurd hold.1.2 (by rw [sparseMem_zero _ (by norm_num)]; norm_num)

end Owmice.Paging
