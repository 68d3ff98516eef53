import Owmice.Initrd
import Owmice.Ramdisk

/-! # Ramdisk round trip

The image that the host program writes is read back by the kernel's file system, from any
address at which the boot loader has put it.

* `initrdInit_image`: `initrd_init` ends and leaves a node and a relocated header for every
  file;
* `roundTrip_iff`: the files come back exactly if there are at most 63 of them. -/

namespace Owmice.Vfs

open Tiling Ramdisk

/-- Files for the ramdisk: as many as the table has headers, with different names that fit a
header and do not hide the directory `mtp`, and contents that fit the read buffer. -/
structure ValidFiles (files : List File) : Prop where
  count : files.length ≤ 64
  nodup : (files.map File.name).Nodup
  name : ∀ f ∈ files, 1 ≤ f.name.length ∧ f.name.length ≤ 63 ∧ (∀ c ∈ f.name, c ≠ 0) ∧
    f.name ≠ mtpName
  content : ∀ f ∈ files, f.content.length ≤ initrdBufferSize

/-- The image is in memory at `loc`. -/
def Loaded (m : Mem) (loc : ℕ) (image : List UInt8) : Prop :=
  ∀ k (h : k < image.length), m (loc + k) = image[k]

/-- Every file is found under its name, and its contents are read. -/
def ReadsBack (files : List File) (r : Initrd) : Prop :=
  ∀ f ∈ files, ∃ ref, finddirFs r .root f.name = some ref ∧
    readFs r ref 0 initrdBufferSize = f.content

/-- The image can be made; and wherever it is loaded, `initrd_init` ends and the files can be
read back from then on, as long as nothing else writes into the image. -/
def RoundTrip (junk : Mem) (files : List File) : Prop :=
  ∃ image, putToRamdisk junk (files.map File.arg) = some image ∧
    ∀ loc m, loc + image.length ≤ 4294967296 → Loaded m loc image →
      ∃ fuel r, initrdInit fuel m loc = some r ∧
        ∀ m', (∀ k < image.length, m' (loc + k) = r.mem (loc + k)) →
          ReadsBack files { r with mem := m' }

/-! ### The image in memory -/

/-- The contents of file `j` lie at its offset. -/
theorem content_at : ∀ (files : List File) (p : List UInt8) (j : ℕ) (hj : j < files.length)
    (k : ℕ) (hk : k < files[j].content.length),
    (p ++ (files.map File.content).flatten)[stop File.size p.length (files.take j) + k]? =
      some files[j].content[k]
  | [], _, _, hj, _, _ => absurd hj (Nat.not_lt_zero _)
  | f :: fs, p, 0, _, k, hk => by
      have hk' : k < f.content.length := hk
      rw [List.take_zero, stop_nil, List.map_cons, List.flatten_cons,
        List.getElem?_append_right (by omega), Nat.add_sub_cancel_left,
        List.getElem?_append_left hk', List.getElem?_eq_getElem hk']
      rfl
  | f :: fs, p, j + 1, hj, k, hk => by
      have hj' : j < fs.length := Nat.lt_of_succ_lt_succ hj
      have h := content_at fs (p ++ f.content) j hj' k hk
      rw [List.append_assoc, List.length_append] at h
      exact h

theorem length_flatten_contents (files : List File) (a : ℕ) :
    a + (files.map File.content).flatten.length = stop File.size a files := by
  induction files generalizing a with
  | nil => rfl
  | cons f fs ih =>
      rw [List.map_cons, List.flatten_cons, List.length_append, stop_cons, ← ih, File.size]
      omega

/-- 64 files of one buffer each fit the address space. -/
theorem stop_bound (files : List File) (a : ℕ)
    (h : ∀ f ∈ files, f.content.length ≤ initrdBufferSize) :
    stop File.size a files ≤ a + initrdBufferSize * files.length := by
  induction files generalizing a with
  | nil => exact le_rfl
  | cons f fs ih =>
      obtain ⟨hf, hfs⟩ := List.forall_mem_cons.mp h
      refine (ih (a + f.size) hfs).trans ?_
      rw [List.length_cons, Nat.mul_succ, File.size]
      omega

/-- What the kernel needs to know of the image in memory `m`, after `i` headers have been
relocated: the number of files, the headers, and the contents. -/
structure ImageAt (files : List File) (loc i : ℕ) (m : Mem) : Prop where
  count : m.read32 loc = files.length
  header : ∀ j (hj : j < files.length), HeaderAt m (loc + 4 + 76 * j) files[j]
    (if j < i then w32 (offsetOf files j + loc) else offsetOf files j)
  content : ∀ j (hj : j < files.length) k (hk : k < files[j].content.length),
    m (loc + offsetOf files j + k) = files[j].content[k]

/-- A little-endian word in memory. -/
theorem read32_le32 {m : Mem} {a v : ℕ} (ha : a + 4 ≤ 4294967296)
    (h : ∀ k (hk : k < 4), m (a + k) = (le32 v)[k]) : m.read32 a = v % 4294967296 := by
  have h0 : m a = UInt8.ofNat v := h 0 (by decide)
  have h1 : m (a + 1) = UInt8.ofNat (v / 256) := h 1 (by decide)
  have h2 : m (a + 2) = UInt8.ofNat (v / 65536) := h 2 (by decide)
  have h3 : m (a + 3) = UInt8.ofNat (v / 16777216) := h 3 (by decide)
  rw [Mem.read32, w32_of_lt (by omega), w32_of_lt (by omega), w32_of_lt (by omega),
    w32_of_lt (by omega), h0, h1, h2, h3]
  simp only [UInt8.toNat_ofNat']
  omega

/-- The first bytes of an image are the number of files. -/
theorem read32_loaded {m : Mem} {loc v : ℕ} {rest : List UInt8}
    (hfit : loc + (le32 v ++ rest).length ≤ 4294967296) (hm : Loaded m loc (le32 v ++ rest)) :
    m.read32 loc = v % 4294967296 := by
  have hlen : (le32 v).length = 4 := rfl
  rw [List.length_append, hlen] at hfit
  refine read32_le32 (by omega) fun k hk => ?_
  rw [hm k (by rw [List.length_append, hlen]; omega)]
  exact List.getElem_append_left (by rw [hlen]; exact hk)

theorem imageAt_loaded {junk m : Mem} {files : List File} {image : List UInt8} {loc : ℕ}
    (hn : files.length ≤ 63) (hnames : FitNames files)
    (hsize : stop File.size 4868 files < 4294967296)
    (himage : putToRamdisk junk (files.map File.arg) = some image)
    (hfit : loc + image.length ≤ 4294967296) (hm : Loaded m loc image) :
    image.length = stop File.size 4868 files ∧ ImageAt files loc 0 m := by
  obtain ⟨t, himage', hhdr⟩ := image_eq hn hnames hsize junk
  obtain rfl := Option.some.inj (himage.symm.trans himage')
  -- kept opaque: the arithmetic would compute a list of 4864 bytes
  obtain ⟨table, htable, hbytes⟩ : ∃ table : List UInt8, table = t.bytes 0 4864 ∧
      ∀ k (h : k < table.length), table[k] = t (w32 (0 + k)) :=
    ⟨_, rfl, fun k h => Mem.getElem_bytes t 0 4864 h⟩
  rw [← htable] at hfit hm ⊢
  have hle : (le32 files.length).length = 4 := rfl
  have htlen : table.length = 4864 := by rw [htable, Mem.length_bytes]
  have hplen : (le32 files.length ++ table).length = 4868 := by
    rw [List.length_append, hle, htlen]
  have hlen : (le32 files.length ++ table ++ (files.map File.content).flatten).length =
      stop File.size 4868 files := by
    rw [List.length_append, hplen, length_flatten_contents]
  rw [hlen] at hfit
  have hmin := le_stop File.size 4868 files
  refine ⟨hlen, ?_, fun j hj => ?_, fun j hj k hk => ?_⟩
  · rw [← hlen, List.append_assoc] at hfit
    rw [List.append_assoc] at hm
    exact (read32_loaded hfit hm).trans (Nat.mod_eq_of_lt (by omega))
  · refine (hhdr j hj).move (hnames _ (List.getElem_mem hj)) (by omega) (by omega) fun k hk => ?_
    have hbyte := hm (4 + (76 * j + k)) (by rw [hlen]; omega)
    have hidx : w32 (0 + (4 + (76 * j + k) - (le32 files.length).length)) = 76 * j + k := by
      rw [w32_of_lt (by omega)]
      omega
    rw [List.getElem_append_left (by omega), List.getElem_append_right (by omega), hbytes,
      hidx] at hbyte
    rw [← hbyte]
    congr 1
    omega
  · have hat := content_at files (le32 files.length ++ table) j hj k hk
    rw [hplen] at hat
    obtain ⟨hlt, hat⟩ := List.getElem?_eq_some_iff.mp hat
    rw [← hat, ← hm _ hlt, offsetOf, Nat.add_assoc]

/-! ### What `initrd_init` makes of it -/

section init

variable {files : List File} {loc i : ℕ} {m : Mem}

theorem le_offsetOf (files : List File) (k : ℕ) : 4868 ≤ offsetOf files k := le_stop _ _ _

/-- The contents of a file end before the image does. -/
theorem offsetOf_add_le {files : List File} {j : ℕ} (hj : j < files.length) :
    offsetOf files j + files[j].size ≤ stop File.size 4868 files := by
  have hsplit : files = files.take j ++ files[j] :: files.drop (j + 1) := by simp
  have hstop := congrArg (stop File.size 4868) hsplit
  rw [stop_append, stop_cons] at hstop
  rw [hstop]
  exact le_stop File.size _ _

/-- One round of the loop relocates one header. -/
theorem ImageAt.step (h : ImageAt files loc i m) (hi : i < files.length) (hn : files.length ≤ 63)
    (hnames : FitNames files) (hfit : loc + stop File.size 4868 files ≤ 4294967296) :
    ImageAt files loc (i + 1)
      (m.write32 (loc + 4 + 76 * i + 68) (m.read32 (loc + 4 + 76 * i + 68) + loc)) := by
  have hmin := le_stop File.size 4868 files
  obtain ⟨m', hm'⟩ : ∃ m', m' =
      m.write32 (loc + 4 + 76 * i + 68) (m.read32 (loc + 4 + 76 * i + 68) + loc) := ⟨_, rfl⟩
  have hout : ∀ y, y < loc + 4 + 76 * i + 68 ∨ loc + 4 + 76 * i + 68 + 4 ≤ y → m' y = m y := by
    intro y hy
    rw [hm', Mem.write32_outside _ _ (by omega) hy]
  rw [← hm']
  refine ⟨?_, fun j hj => ?_, fun j hj k hk => ?_⟩
  · rw [← h.count, hm', Mem.read32_write32_of_disjoint _ _ (by omega) (by omega) (by omega)]
  · have hname := hnames _ (List.getElem_mem hj)
    have hat := h.header j hj
    by_cases hji : j = i
    · -- this header: its offset becomes an address
      subst hji
      rw [if_neg (lt_irrefl j)] at hat
      rw [if_pos (Nat.lt_succ_self j)]
      refine ⟨fun k hk => ?_, ?_, ?_, ?_⟩
      · rw [hout _ (by omega), hat.name k hk]
      · rw [hout _ (by omega), hat.nul]
      · rw [hm', Mem.read32_write32, hat.offset_eq]
      · rw [hm', Mem.read32_write32_of_disjoint _ _ (by omega) (by omega) (by omega), hat.length_eq]
    · have hlt : (j < i + 1) = (j < i) := propext ⟨fun h => by omega, fun h => by omega⟩
      simp only [hlt]
      exact hat.move hname (by omega) (by omega) fun k hk => hout _ (by omega)
  · have := le_offsetOf files j
    rw [hout _ (by omega), h.content j hj k hk]

theorem imageAt_relocated (h : ImageAt files loc 0 m) (hn : files.length ≤ 63)
    (hnames : FitNames files) (hfit : loc + stop File.size 4868 files ≤ 4294967296) (k : ℕ)
    (hk : k ≤ files.length) : ImageAt files loc k (relocated m loc k) := by
  induction k with
  | zero => exact h
  | succ k ih => exact (ih (by omega)).step (by omega) hn hnames hfit

/-- The node of file `j`. -/
def nodeOf (f : File) (j : ℕ) : FsNode :=
  ⟨f.name, 0, 0, 0, fsFile, j, f.size, 0, true, false, false⟩

theorem ImageAt.fileNode (h : ImageAt files loc i m) {j : ℕ} (hj : j < files.length)
    (hn : files.length ≤ 63) (hname : files[j].name.length ≤ 63) (hne : ∀ c ∈ files[j].name, c ≠ 0)
    (hfit : loc + stop File.size 4868 files ≤ 4294967296) :
    Vfs.fileNode m (loc + 4 + 76 * j) j = nodeOf files[j] j := by
  have hmin := le_stop File.size 4868 files
  have hat := h.header j hj
  have hstr : cstring (fun x => m (w32 x)) 128 (loc + 4 + 76 * j + 1) = files[j].name := by
    refine cstring_eq (by omega) hne (fun k hk => ?_) ?_
    · rw [w32_of_lt (by omega), hat.name k hk]
    · rw [w32_of_lt (by omega), hat.nul]
  simp only [Vfs.fileNode, nodeOf, hstr, hat.length_eq]

/-- The file system of the files in the image at `loc`. -/
def mounted (files : List File) (loc : ℕ) (m : Mem) : Initrd where
  mem := m
  fileHeaders := loc + 4
  rootNodes := (List.range files.length).map fun j => nodeOf (files.getD j ⟨[], []⟩) j
  nrootNodes := files.length

/-- `initrd_init` ends and leaves a node and a relocated header for every file. -/
theorem initrdInit_image (h : ImageAt files loc 0 m) (hn : files.length ≤ 63)
    (hnames : FitNames files) (hne : ∀ f ∈ files, ∀ c ∈ f.name, c ≠ 0)
    (hfit : loc + stop File.size 4868 files ≤ 4294967296) :
    ∃ m', initrdInit 64 m loc = some (mounted files loc m') ∧
      ImageAt files loc files.length m' := by
  have hmin := le_stop File.size 4868 files
  refine ⟨_, ?_, imageAt_relocated h hn hnames hfit _ le_rfl⟩
  rw [initrdInit_eq h.count (by omega) (by omega), toInt32, if_pos (by omega), mounted]
  congr 2
  refine List.map_congr_left fun j hj => ?_
  have hj := List.mem_range.mp hj
  rw [List.getD_eq_getElem _ _ hj]
  exact (imageAt_relocated h hn hnames hfit (j + 1) hj).fileNode hj hn
    (hnames _ (List.getElem_mem hj)) (hne _ (List.getElem_mem hj)) hfit

end init

/-! ### Reading the files back -/

section back

variable {files : List File} {loc j : ℕ} {m : Mem}

theorem node_mounted (hj : j < files.length) :
    (mounted files loc m).node (.file j) = nodeOf files[j] j := by
  rw [Initrd.node, mounted, List.getD_eq_getElem _ _ (by simpa using hj), List.getElem_map,
    List.getElem_range, List.getD_eq_getElem _ _ hj]

/-- The lookup skips the directory `mtp` for the name of a file. -/
theorem finddirFs_root {r : Initrd} {name : List UInt8} (hne : ∀ c ∈ name, c ≠ 0)
    (hmtp : name ≠ mtpName) : finddirFs r .root name =
      ((List.range r.nrootNodes.toNat).find? fun i => streq name (r.node (.file i)).name).map
        .file := by
  have hno : ¬ (NodeRef.root = .root ∧ streq name mtpName = true) := by
    rw [streq_iff hne (by simp [mtpName])]
    exact fun h => hmtp h.2
  have hdir : (r.node .root).flags % 8 = fsDirectory ∧ (r.node .root).finddir = true := ⟨rfl, rfl⟩
  rw [finddirFs, if_pos hdir, initrdFinddir, if_neg hno]

/-- The first node with the name of file `j` is that of file `j`. -/
theorem finddirFs_mounted (h : ValidFiles files) (hj : j < files.length) :
    finddirFs (mounted files loc m) .root files[j].name = some (.file j) := by
  obtain ⟨-, -, hne, hmtp⟩ := h.name _ (List.getElem_mem hj)
  rw [finddirFs_root hne hmtp]
  have hfind : (List.range files.length).find? (fun i => streq files[j].name
      ((mounted files loc m).node (.file i)).name) = some j := by
    rw [List.find?_range_eq_some]
    refine ⟨?_, List.mem_range.mpr hj, fun i hi => ?_⟩
    · rw [node_mounted hj]
      exact (streq_iff hne hne).mpr rfl
    · have hi' : i < files.length := by omega
      rw [node_mounted hi', Bool.not_eq_true', Bool.eq_false_iff, ne_eq]
      rw [nodeOf, streq_iff hne (h.name _ (List.getElem_mem hi')).2.2.1]
      intro heq
      have hi₁ : i < (files.map File.name).length := by simpa using hi'
      have hj₁ : j < (files.map File.name).length := by simpa using hj
      have hnames : (files.map File.name)[i] = (files.map File.name)[j] := by
        simpa using heq.symm
      have := h.nodup.getElem_inj_iff.mp hnames
      omega
  have hcount : (mounted files loc m).nrootNodes.toNat = files.length := Int.toNat_natCast _
  rw [hcount, hfind, Option.map_some]

/-- The contents of a file are read from where its header says. -/
theorem readFs_mounted (h : ImageAt files loc files.length m) (hj : j < files.length)
    (hsize : files[j].content.length ≤ initrdBufferSize)
    (hfit : loc + stop File.size 4868 files ≤ 4294967296) :
    readFs (mounted files loc m) (.file j) 0 initrdBufferSize = files[j].content := by
  have hend := offsetOf_add_le hj
  have hlow := le_offsetOf files j
  have hat := h.header j hj
  rw [if_pos hj] at hat
  have hoff : (mounted files loc m).mem.read32 ((mounted files loc m).header j + 68) =
      w32 (offsetOf files j + loc) := hat.offset_eq
  have hlen : (mounted files loc m).mem.read32 ((mounted files loc m).header j + 72) =
      files[j].content.length := hat.length_eq
  have hsub : sub32 files[j].content.length 0 = files[j].content.length :=
    sub32_of_le (Nat.zero_le _) (hsize.trans_lt (by decide))
  have hbuf : w32 (0 + initrdBufferSize) = initrdBufferSize := w32_of_lt (by decide)
  -- the length of the file in either case
  have hcut : (if files[j].content.length < initrdBufferSize then files[j].content.length
      else initrdBufferSize) = files[j].content.length := by
    split
    · rfl
    · omega
  have hread : readFs (mounted files loc m) (.file j) 0 initrdBufferSize =
      m.bytes (w32 (offsetOf files j + loc) + 0) files[j].content.length := by
    rw [readFs, node_mounted hj]
    simp only [nodeOf, if_true, initrdRead, hoff, hlen, Nat.not_lt_zero, if_false, hbuf, hsub, hcut,
      not_lt.mpr hsize]
    rfl
  rw [hread]
  refine List.ext_getElem (Mem.length_bytes _ _ _) fun k _ hk => ?_
  rw [File.size] at hend
  have haddr : w32 (w32 (offsetOf files j + loc) + 0 + k) = loc + offsetOf files j + k := by
    have h1 : offsetOf files j + loc < 4294967296 := by omega
    rw [w32_of_lt h1, w32_of_lt (by omega), Nat.add_zero, Nat.add_comm loc]
  rw [Mem.getElem_bytes, haddr, h.content j hj k hk]

/-- Whoever leaves the image alone leaves it as it is. -/
theorem ImageAt.congr {i : ℕ} {m' : Mem} (h : ImageAt files loc i m) (hn : files.length ≤ 63)
    (hnames : FitNames files) (hfit : loc + stop File.size 4868 files ≤ 4294967296)
    (hm : ∀ k < stop File.size 4868 files, m' (loc + k) = m (loc + k)) :
    ImageAt files loc i m' := by
  have hmin := le_stop File.size 4868 files
  have hbyte : ∀ y, loc ≤ y → y < loc + stop File.size 4868 files → m' y = m y := by
    intro y h1 h2
    have := hm (y - loc) (by omega)
    rwa [Nat.add_sub_cancel' h1] at this
  refine ⟨?_, fun j hj => ?_, fun j hj k hk => ?_⟩
  · rw [← h.count]
    refine Mem.read32_congr fun y hy => hbyte y ?_ ?_
    · exact (hy.le_lt (by omega)).1
    · have := hy.le_lt (by omega)
      omega
  · exact (h.header j hj).move (hnames _ (List.getElem_mem hj)) (by omega) (by omega) fun k hk =>
      hbyte _ (by omega) (by omega)
  · have := offsetOf_add_le hj
    rw [File.size] at this
    rw [hbyte _ (by omega) (by omega), h.content j hj k hk]

end back

/-! ### Round trip -/

/-- With 64 files no image is read back: their number becomes negative. -/
theorem not_roundTrip {files : List File} (h : ValidFiles files) (hlen : files.length = 64)
    (junk : Mem) : ¬ RoundTrip junk files := by
  rintro ⟨image, himage, hload⟩
  have hcount : nheaders (files.map File.arg) = -64 := nheaders_64 (by simpa using hlen)
  have himage' : image = le32 4294967232 ++ junk.bytes 0 (76 * 64) := by
    have htake : (files.map File.arg).take (-64 : ℤ).toNat = [] := rfl
    simp only [putToRamdisk, hcount, htake, fillHeaders, Option.some.injEq] at himage
    rw [← himage]
    simp
  obtain ⟨table, htable⟩ : ∃ table, table = junk.bytes 0 (76 * 64) := ⟨_, rfl⟩
  have htlen : table.length = 4864 := by rw [htable, Mem.length_bytes]
  have hilen : image.length = 4868 := by
    rw [himage', ← htable, List.length_append, htlen]
    rfl
  obtain ⟨m, hm⟩ : ∃ m : Mem, Loaded m 0 image := by
    refine ⟨fun k => image.getD k 0, fun k hk => ?_⟩
    change image.getD (0 + k) 0 = image[k]
    rw [Nat.zero_add, List.getD_eq_getElem _ _ hk]
  obtain ⟨fuel, r, hinit, hback⟩ := hload 0 m (by omega) hm
  have hword : m.read32 0 = 4294967232 := by
    rw [himage', ← htable] at hm hilen
    exact read32_loaded (by omega) hm
  have hcount : r.nrootNodes = -64 := by
    rw [initrdInit, hword] at hinit
    obtain ⟨p, -, rfl⟩ := Option.map_eq_some_iff.mp hinit
    rfl
  -- the lookup passes over no node
  have hpos : 0 < files.length := by omega
  obtain ⟨-, -, hne, hmtp⟩ := h.name _ (List.getElem_mem hpos)
  obtain ⟨ref, href, -⟩ := hback r.mem (fun _ _ => rfl) _ (List.getElem_mem hpos)
  rw [finddirFs_root hne hmtp, hcount] at href
  simp at href

/-- The image of at most 63 files can be read back. -/
theorem roundTrip {files : List File} (h : ValidFiles files) (hn : files.length ≤ 63)
    (junk : Mem) : RoundTrip junk files := by
  have hnames : FitNames files := fun f hf => (h.name f hf).2.1
  have hne : ∀ f ∈ files, ∀ c ∈ f.name, c ≠ 0 := fun f hf => (h.name f hf).2.2.1
  have hsize : stop File.size 4868 files < 4294967296 := by
    have h1 := stop_bound files 4868 h.content
    have h2 : initrdBufferSize * files.length ≤ initrdBufferSize * 63 := Nat.mul_le_mul_left _ hn
    have h3 : 4868 + initrdBufferSize * 63 < 4294967296 := by decide
    omega
  obtain ⟨t, himage, -⟩ := image_eq hn hnames hsize junk
  refine ⟨_, himage, fun loc m hfit hm => ?_⟩
  obtain ⟨hlen, hat⟩ := imageAt_loaded hn hnames hsize himage hfit hm
  rw [hlen] at hfit
  obtain ⟨m', hinit, hat'⟩ := initrdInit_image hat hn hnames hne hfit
  refine ⟨64, _, hinit, fun m₁ hm₁ f hf => ?_⟩
  obtain ⟨j, hj, rfl⟩ := List.getElem_of_mem hf
  have hat₁ : ImageAt files loc files.length m₁ := hat'.congr hn hnames hfit (hlen ▸ hm₁)
  exact ⟨_, finddirFs_mounted h hj, readFs_mounted hat₁ hj (h.content _ hf) hfit⟩

/-- The files come back exactly if there are at most 63 of them. -/
theorem roundTrip_iff {files : List File} (h : ValidFiles files) (junk : Mem) :
    RoundTrip junk files ↔ files.length ≤ 63 := by
  constructor
  · intro htrip
    by_contra hn
    have := h.count
    exact not_roundTrip h (by omega) junk htrip
  · exact fun hn => roundTrip h hn junk

/-- The theorem for two files, one of them empty. -/
theorem roundTrip_two : RoundTrip (fun _ => 255) [⟨[97], [1, 2, 3]⟩, ⟨[97, 98], []⟩] :=
  (roundTrip_iff ⟨by decide, by decide, by decide +kernel, by decide⟩ _).mpr (by decide)

/-- 64 empty files with names of one byte do not come back. -/
theorem files_lost :
    ValidFiles ((List.range 64).map fun i => ⟨[UInt8.ofNat (i + 1)], []⟩) ∧
      ¬ RoundTrip (fun _ => 0) ((List.range 64).map fun i => ⟨[UInt8.ofNat (i + 1)], []⟩) := by
  have h : ValidFiles ((List.range 64).map fun i => ⟨[UInt8.ofNat (i + 1)], []⟩) :=
    ⟨by decide, by decide +kernel, by decide +kernel, by decide +kernel⟩
  exact ⟨h, not_roundTrip h rfl _⟩

end Owmice.Vfs
