import Owmice.Initrd

/-! # Listing and lookup (`io/initrd.h`, `io/vfs.h`)

`initrd_readdir` counts the entries of the root directory from the directory `mtp` on, so that
file `i` is entry `i + 1`, and `initrd_finddir` walks over the files themselves.  The entry that
`initrd_readdir` returns is the variable `dirent`, which every call writes again.

* `finddirFs_eq_some_iff`: what a lookup finds;
* `lsLoop_eq`: `ls_initrd` from any entry on;
* `listing_agrees`: the two traversals agree, for every loaded ramdisk. -/

namespace Owmice.Vfs

/-! ### Directory entries -/

/-- `struct dirent`; the name is a buffer. -/
structure Dirent where
  name : List UInt8
  ino : ℕ

/-- `initrd_readdir`: the contents of `dirent` when it is returned. -/
def initrdReaddir (r : Initrd) (dirent : Dirent) (node : NodeRef) (index : ℕ) : Option Dirent :=
  if node = .root ∧ index = 0 then
    some { name := setAt (strcpy dirent.name mtpName) 3 0, ino := 0 }
  else if (r.nrootNodes % 4294967296).toNat ≤ sub32 index 1 then none
  else
    let f := r.node (.file (sub32 index 1))
    some { name := setAt (strcpy dirent.name f.name) f.name.length 0, ino := f.inode }

/-- `readdir_fs`. -/
def readdirFs (r : Initrd) (dirent : Dirent) (node : NodeRef) (index : ℕ) : Option Dirent :=
  if (r.node node).flags % 8 = fsDirectory ∧ (r.node node).readdir then
    initrdReaddir r dirent node index
  else none

/-- `VGA_COLOR_LIGHT_BLUE`. -/
def vgaColorLightBlue : ℕ := 9
/-- `VGA_COLOR_WHITE`. -/
def vgaColorWhite : ℕ := 15

/-- How far a call of `ls_initrd` comes. -/
inductive LsResult where
  /-- The loop has not ended. -/
  | running
  /-- The flags of a node are read through the null pointer. -/
  | nullNode
  /-- The loop has ended, and these names have been printed in these colors. -/
  | done (lines : List (List UInt8 × ℕ))

/-- The loop of `ls_initrd`. -/
def lsLoop (r : Initrd) : ℕ → ℕ → Dirent → List (List UInt8 × ℕ) → LsResult
  | 0, _, _, _ => .running
  | fuel + 1, i, dirent, lines =>
      match readdirFs r dirent .root i with
      | none => .done lines
      | some dirent =>
          match finddirFs r .root (cstr dirent.name) with
          | none => .nullNode
          | some ref =>
              let colorOut :=
                if (r.node ref).flags = fsDirectory then vgaColorLightBlue else vgaColorWhite
              lsLoop r fuel (w32 (i + 1)) dirent (lines ++ [(cstr dirent.name, colorOut)])

/-- `ls_initrd`. -/
def lsInitrd (fuel : ℕ) (r : Initrd) (dirent : Dirent) : LsResult := lsLoop r fuel 0 dirent []

/-! ### The files of a file system -/

/-- The file system has one node for each name, in this order. -/
structure HasFiles (r : Initrd) (names : List (List UInt8)) : Prop where
  count : r.nrootNodes = names.length
  few : names.length < 2147483648
  name : ∀ i (h : i < names.length), (r.node (.file i)).name = names[i]
  inode : ∀ i < names.length, (r.node (.file i)).inode = i
  flags : ∀ i < names.length, (r.node (.file i)).flags = fsFile
  text : ∀ s ∈ names, ∀ c ∈ s, c ≠ 0

section files

variable {r : Initrd} {names : List (List UInt8)}

theorem mtpName_text : ∀ c ∈ mtpName, c ≠ 0 := by simp [mtpName]

theorem readdirFs_root (dirent : Dirent) (index : ℕ) :
    readdirFs r dirent .root index = initrdReaddir r dirent .root index := by
  rw [readdirFs, if_pos ⟨rfl, rfl⟩]

/-- Entry 0 is the directory `mtp`. -/
theorem readdirFs_mtp (r : Initrd) (dirent : Dirent) :
    ∃ d, readdirFs r dirent .root 0 = some d ∧ cstr d.name = mtpName ∧ d.ino = 0 := by
  refine ⟨⟨setAt (strcpy dirent.name mtpName) 3 0, 0⟩, ?_, ?_, rfl⟩
  · rw [readdirFs_root, initrdReaddir, if_pos ⟨rfl, rfl⟩]
  · exact cstr_setAt_length (s := mtpName) (cstr_strcpy dirent.name mtpName_text)

/-- Entry `i + 1` is file `i`. -/
theorem HasFiles.readdirFs_file (h : HasFiles r names) (dirent : Dirent) {i : ℕ}
    (hi : i < names.length) :
    ∃ d, readdirFs r dirent .root (i + 1) = some d ∧ cstr d.name = names[i] ∧ d.ino = i := by
  have hfew := h.few
  have hname := h.name i hi
  have hsub : sub32 (i + 1) 1 = i := sub32_of_le (by omega) (by omega)
  have hcount : ¬ (r.nrootNodes % 4294967296).toNat ≤ i := by
    rw [h.count]
    omega
  refine ⟨⟨setAt (strcpy dirent.name names[i]) names[i].length 0, i⟩, ?_, ?_, rfl⟩
  · rw [readdirFs_root, initrdReaddir, if_neg (by simp), hsub, if_neg hcount]
    simp only [hname, h.inode i hi]
  · exact cstr_setAt_length (cstr_strcpy dirent.name (h.text _ (List.getElem_mem hi)))

/-- There is nothing behind the last file. -/
theorem HasFiles.readdirFs_past (h : HasFiles r names) (dirent : Dirent) {index : ℕ}
    (hi : names.length < index) (hlt : index < 4294967296) :
    readdirFs r dirent .root index = none := by
  have hsub : sub32 index 1 = index - 1 := sub32_of_le (by omega) hlt
  have hcount : (r.nrootNodes % 4294967296).toNat ≤ index - 1 := by
    rw [h.count]
    omega
  rw [readdirFs_root, initrdReaddir, if_neg (by omega), hsub, if_pos hcount]

/-- A lookup in the root directory compares the names one after the other. -/
theorem HasFiles.finddirFs_root (h : HasFiles r names) {s : List UInt8} (hs : ∀ c ∈ s, c ≠ 0) :
    finddirFs r .root s =
      if s = mtpName then some .mtp
      else ((List.range names.length).find? fun i => decide (names[i]? = some s)).map .file := by
  have hmtp : streq s mtpName = true ↔ s = mtpName := streq_iff hs mtpName_text
  have hfind : ((List.range r.nrootNodes.toNat).find? fun i => streq s (r.node (.file i)).name) =
      (List.range names.length).find? fun i => decide (names[i]? = some s) := by
    rw [h.count, Int.toNat_natCast]
    refine List.find?_congr fun i hi => ?_
    have hi := List.mem_range.mp hi
    have hmem : names[i] ∈ names := List.getElem_mem hi
    rw [h.name i hi, Bool.eq_iff_iff, streq_iff hs (h.text _ hmem), decide_eq_true_iff,
      List.getElem?_eq_getElem hi, Option.some.injEq]
    exact eq_comm
  rw [finddirFs, if_pos ⟨rfl, rfl⟩, initrdFinddir, hfind]
  simp only [true_and, hmtp]

/-- A name is found exactly where it is listed. -/
theorem HasFiles.finddirFs_eq_some_iff (h : HasFiles r names) (hnodup : names.Nodup)
    (hmtp : mtpName ∉ names) {s : List UInt8} (hs : ∀ c ∈ s, c ≠ 0) (ref : NodeRef) :
    finddirFs r .root s = some ref ↔
      s = mtpName ∧ ref = .mtp ∨ ∃ i, names[i]? = some s ∧ ref = .file i := by
  rw [h.finddirFs_root hs]
  by_cases hsm : s = mtpName
  · have hno : ∀ i, names[i]? ≠ some s := fun i hi => hmtp (hsm ▸ List.mem_of_getElem? hi)
    simp [hsm] at hno ⊢
    simp [hno, eq_comm]
  · simp only [hsm, if_false, false_and, false_or, Option.map_eq_some_iff]
    refine exists_congr fun i => ?_
    rw [List.find?_range_eq_some]
    simp only [decide_eq_true_eq, List.mem_range, Bool.not_eq_true', decide_eq_false_iff_not]
    constructor
    · rintro ⟨⟨hi, _⟩, rfl⟩
      exact ⟨hi, rfl⟩
    · rintro ⟨hi, rfl⟩
      refine ⟨⟨hi, (List.getElem?_eq_some_iff.mp hi).1, fun j hj hj' => ?_⟩, rfl⟩
      obtain ⟨hilt, hieq⟩ := List.getElem?_eq_some_iff.mp hi
      obtain ⟨hjlt, hjeq⟩ := List.getElem?_eq_some_iff.mp hj'
      have := (hnodup.getElem_inj_iff).mp (hieq.trans hjeq.symm)
      omega

/-- Every entry that is listed can be looked up. -/
theorem HasFiles.finddirFs_listed (h : HasFiles r names) (hnodup : names.Nodup)
    (hmtp : mtpName ∉ names) {dirent d : Dirent} {index : ℕ} (hlt : index < 4294967296)
    (hd : readdirFs r dirent .root index = some d) :
    ∃ ref, finddirFs r .root (cstr d.name) = some ref ∧ (r.node ref).name = cstr d.name ∧
      (r.node ref).inode = d.ino := by
  cases index with
  | zero =>
      obtain ⟨d', hd', hname, hino⟩ := readdirFs_mtp r dirent
      obtain rfl : d' = d := Option.some.inj (hd'.symm.trans hd)
      refine ⟨.mtp, ?_, hname.symm, hino.symm⟩
      exact (h.finddirFs_eq_some_iff hnodup hmtp cstr_ne_zero _).mpr (.inl ⟨hname, rfl⟩)
  | succ i =>
      by_cases hi : i < names.length
      · obtain ⟨d', hd', hname, hino⟩ := h.readdirFs_file dirent hi
        obtain rfl : d' = d := Option.some.inj (hd'.symm.trans hd)
        refine ⟨.file i, ?_, (h.name i hi).trans hname.symm, (h.inode i hi).trans hino.symm⟩
        refine (h.finddirFs_eq_some_iff hnodup hmtp cstr_ne_zero _).mpr (.inr ⟨i, ?_, rfl⟩)
        rw [List.getElem?_eq_getElem hi, hname]
      · rw [h.readdirFs_past dirent (by omega) hlt] at hd
        cases hd

/-- `ls_initrd` from file `i` on prints the files from `i` on in white. -/
theorem HasFiles.lsLoop_files (h : HasFiles r names) (hnodup : names.Nodup)
    (hmtp : mtpName ∉ names) : ∀ (fuel i : ℕ) (dirent : Dirent) (lines : List (List UInt8 × ℕ)),
    i ≤ names.length → names.length - i < fuel →
      lsLoop r fuel (i + 1) dirent lines =
        .done (lines ++ (names.drop i).map fun s => (s, vgaColorWhite))
  | 0, _, _, _, _, hfuel => absurd hfuel (Nat.not_lt_zero _)
  | fuel + 1, i, dirent, lines, hi, hfuel => by
      have hfew := h.few
      by_cases hlt : i < names.length
      · obtain ⟨d, hd, hname, -⟩ := h.readdirFs_file dirent hlt
        have hfind : finddirFs r .root (cstr d.name) = some (.file i) := by
          refine (h.finddirFs_eq_some_iff hnodup hmtp cstr_ne_zero _).mpr (.inr ⟨i, ?_, rfl⟩)
          rw [List.getElem?_eq_getElem hlt, hname]
        rw [hname] at hfind
        have hcolor : (r.node (.file i)).flags ≠ fsDirectory := by
          rw [h.flags i hlt]
          decide
        have ih := h.lsLoop_files hnodup hmtp fuel (i + 1) d (lines ++ [(names[i], vgaColorWhite)])
          (by omega) (by omega)
        simp only [lsLoop, hd, hfind, hcolor, if_false, hname, w32_of_lt (show i + 1 + 1 < _ by omega)]
        rw [ih, List.drop_eq_getElem_cons hlt, List.map_cons, List.append_assoc,
          List.singleton_append]
      · have hpast := h.readdirFs_past dirent (show names.length < i + 1 by omega) (by omega)
        rw [List.drop_eq_nil_of_le (by omega)]
        simp only [lsLoop, hpast, List.map_nil, List.append_nil]

/-- `ls_initrd` prints the directory in light blue and then the files. -/
theorem HasFiles.lsInitrd_eq (h : HasFiles r names) (hnodup : names.Nodup)
    (hmtp : mtpName ∉ names) {fuel : ℕ} (dirent : Dirent) (hfuel : names.length + 1 < fuel) :
    lsInitrd fuel r dirent =
      .done ((mtpName, vgaColorLightBlue) :: names.map fun s => (s, vgaColorWhite)) := by
  obtain ⟨fuel, rfl⟩ : ∃ k, fuel = k + 1 := ⟨fuel - 1, by omega⟩
  obtain ⟨d, hd, hname, -⟩ := readdirFs_mtp r dirent
  have hfind : finddirFs r .root (cstr d.name) = some .mtp :=
    (h.finddirFs_eq_some_iff hnodup hmtp cstr_ne_zero _).mpr (.inl ⟨hname, rfl⟩)
  rw [hname] at hfind
  have hcolor : (r.node .mtp).flags = fsDirectory := rfl
  have hone : w32 (0 + 1) = 0 + 1 := w32_of_lt (by decide)
  have hfiles := h.lsLoop_files hnodup hmtp fuel 0 d [(mtpName, vgaColorLightBlue)]
    (Nat.zero_le _) (by omega)
  simp only [lsInitrd, lsLoop, hd, hfind, hcolor, if_true, hname, hone, List.nil_append]
  rw [hfiles]
  simp

end files

/-! ### Loaded ramdisks -/

/-- `file_headers[i].name`. -/
def nameField (m : Mem) (location i : ℕ) : List UInt8 :=
  (List.range 64).map fun k => m (location + 4 + 76 * i + 1 + k)

/-- The names in the first `n` headers. -/
def names (m : Mem) (location n : ℕ) : List (List UInt8) :=
  (List.range n).map fun i => cstr (nameField m location i)

/-- A ramdisk of `n` files is in memory at `location`: each name ends in its field, no two
files have the same name, and none has the name of the directory. -/
structure LoadedRamdisk (m : Mem) (location n : ℕ) : Prop where
  count : m.read32 location = n
  fits : location + 4 + 76 * n ≤ 4294967296
  nul : ∀ i < n, 0 ∈ nameField m location i
  nodup : (names m location n).Nodup
  mtp : mtpName ∉ names m location n

/-- `readdir_fs` and `finddir_fs` on the root directory enumerate `mtp` and `names`, and nothing
else. -/
structure ListingAgrees (r : Initrd) (names : List (List UInt8)) : Prop where
  first : ∀ dirent, ∃ d, readdirFs r dirent .root 0 = some d ∧ cstr d.name = mtpName ∧ d.ino = 0
  file : ∀ dirent i (h : i < names.length), ∃ d, readdirFs r dirent .root (i + 1) = some d ∧
    cstr d.name = names[i] ∧ d.ino = i
  past : ∀ dirent index, names.length < index → index < 4294967296 →
    readdirFs r dirent .root index = none
  found : ∀ dirent index d, index < 4294967296 → readdirFs r dirent .root index = some d →
    ∃ ref, finddirFs r .root (cstr d.name) = some ref ∧ (r.node ref).name = cstr d.name ∧
      (r.node ref).inode = d.ino
  other : ∀ s, (∀ c ∈ s, c ≠ 0) → s ≠ mtpName → s ∉ names → finddirFs r .root s = none
  ls : ∀ dirent fuel, names.length + 1 < fuel → lsInitrd fuel r dirent =
    .done ((mtpName, vgaColorLightBlue) :: names.map fun s => (s, vgaColorWhite))

theorem HasFiles.listingAgrees {r : Initrd} {names : List (List UInt8)} (h : HasFiles r names)
    (hnodup : names.Nodup) (hmtp : mtpName ∉ names) : ListingAgrees r names where
  first := readdirFs_mtp r
  file dirent i hi := h.readdirFs_file dirent hi
  past dirent index hi hlt := h.readdirFs_past dirent hi hlt
  found dirent index d hlt hd := h.finddirFs_listed hnodup hmtp hlt hd
  other s hs hsm hsn := by
    cases hfind : finddirFs r .root s with
    | none => rfl
    | some ref =>
        rcases (h.finddirFs_eq_some_iff hnodup hmtp hs ref).mp hfind with ⟨h1, _⟩ | ⟨i, hi, _⟩
        · exact absurd h1 hsm
        · exact absurd (List.mem_of_getElem? hi) hsn
  ls dirent fuel hfuel := h.lsInitrd_eq hnodup hmtp dirent hfuel

/-- The node of file `i` has the name in header `i`: the offsets that `initrd_init` changes are
behind the names. -/
theorem fileNode_name {m : Mem} {location n i : ℕ} (h : LoadedRamdisk m location n) (hi : i < n) :
    (fileNode (relocated m location (i + 1)) (location + 4 + 76 * i) i).name =
      cstr (nameField m location i) := by
  have hfit := h.fits
  have hlen : (nameField m location i).length = 64 := by simp [nameField]
  apply cstring_eq_cstr (by omega) (h.nul i hi)
  intro k hk
  have hsame : relocated m location (i + 1) (location + 4 + 76 * i + 1 + k) =
      m (location + 4 + 76 * i + 1 + k) := by
    apply relocated_only (by omega)
    rintro ⟨j, hj, h1, h2⟩
    omega
  rw [w32_of_lt (by omega), hsame]
  simp [nameField]

/-- Listing and lookup agree on every loaded ramdisk. -/
theorem listing_agrees {m : Mem} {location n : ℕ} (h : LoadedRamdisk m location n) :
    ∃ r, (∀ fuel, n < fuel → initrdInit fuel m location = some r) ∧
      ListingAgrees r (names m location n) := by
  have hfit := h.fits
  refine ⟨_, fun fuel hfuel => initrdInit_eq h.count h.fits hfuel, ?_⟩
  have hlen : (names m location n).length = n := by simp [names]
  have hnode : ∀ i < n, ((List.range n).map fun j =>
      fileNode (relocated m location (j + 1)) (location + 4 + 76 * j) j).getD i freshNode =
        fileNode (relocated m location (i + 1)) (location + 4 + 76 * i) i := by
    intro i hi
    simp [hi]
  refine HasFiles.listingAgrees ⟨?_, by omega, ?_, ?_, ?_, ?_⟩ h.nodup h.mtp
  · simp only [toInt32, hlen]
    rw [if_pos (by omega)]
  · intro i hi
    rw [hlen] at hi
    simp only [Initrd.node, hnode i hi, names, List.getElem_map, List.getElem_range]
    exact fileNode_name h hi
  · intro i hi
    rw [hlen] at hi
    rw [Initrd.node, hnode i hi, fileNode]
  · intro i hi
    rw [hlen] at hi
    rw [Initrd.node, hnode i hi, fileNode]
  · intro s hs
    obtain ⟨i, -, rfl⟩ := List.mem_map.mp hs
    exact cstr_ne_zero

/-- A ramdisk with the files `a` and `ab`. -/
def twoFiles : Mem :=
  Mem.load (Mem.load (Mem.load (fun _ => 0) 4096 [2]) 4101 [97]) 4177 [97, 98]

/-- The theorem for two files, the name of the one a prefix of that of the other. -/
theorem listing_agrees_two : ∃ r, (∀ fuel, 2 < fuel → initrdInit fuel twoFiles 4096 = some r) ∧
    ListingAgrees r (names twoFiles 4096 2) :=
  listing_agrees ⟨by decide +kernel, by decide, by decide +kernel, by decide +kernel,
    by decide +kernel⟩

end Owmice.Vfs
