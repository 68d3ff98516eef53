import Mathlib.Data.List.GetD
import Owmice.Memory
import Owmice.Tiling

/-! # The ramdisk image (`utils/put_to_ramdisk.c`)

The host program that makes the ramdisk: the number of files, a table of 64 headers, and the
contents one behind the other.  A header has 76 bytes: `magic` at 0, `name` at 1, three bytes
of padding, `offset` at 68 and `length` at 72.  The table is a local array, so the bytes that
the program does not write are whatever was on the stack (`junk`).

* `HeaderAt`: a header in memory;
* `fillHeaders_files`: the headers that the program writes;
* `image_eq`: the image of at most 63 files. -/

namespace Owmice.Ramdisk

open Tiling

/-- A pair of arguments: the name on the ramdisk, and the contents of the host's file, `none`
when it does not open. -/
structure Arg where
  name : List UInt8
  host : Option (List UInt8)

/-- A little-endian `int`. -/
def le32 (v : ℕ) : List UInt8 :=
  [UInt8.ofNat v, UInt8.ofNat (v / 256), UInt8.ofNat (v / 65536), UInt8.ofNat (v / 16777216)]

/-- The first loop of `main`, from header `i` and offset `off` on; `none` is the exit with "no
such file". -/
def fillHeaders : List Arg → ℕ → ℕ → Mem → Option Mem
  | [], _, _, t => some t
  | f :: fs, i, off, t =>
      let t := t.load (76 * i + 1) (f.name ++ [0])
      let t := t.write32 (76 * i + 68) off
      match f.host with
      | none => none
      | some content =>
          let t := t.write32 (76 * i + 72) content.length
          fillHeaders fs (i + 1) (w32 (off + content.length)) (t.load (76 * i) [0xBF])

/-- The value that a signed `char` holds. -/
def toChar (n : ℤ) : ℤ := (n + 128) % 256 - 128

/-- `argc`: the program's name and two arguments a file, in a `char`. -/
def argc (args : List Arg) : ℤ := toChar (1 + 2 * args.length)

/-- `nheaders`. -/
def nheaders (args : List Arg) : ℤ := (argc args - 1).tdiv 2

/-- `main`: the image that it writes. -/
def putToRamdisk (junk : Mem) (args : List Arg) : Option (List UInt8) :=
  let n := nheaders args
  let files := args.take n.toNat
  match fillHeaders files 0 (76 * 64 + 4) junk with
  | none => none
  | some t =>
      some (le32 (n % 4294967296).toNat ++ t.bytes 0 (76 * 64) ++ (files.filterMap Arg.host).flatten)

/-! ### Files -/

/-- A file for the ramdisk. -/
structure File where
  name : List UInt8
  content : List UInt8
deriving DecidableEq

/-- The arguments that name a file. -/
def File.arg (f : File) : Arg := ⟨f.name, some f.content⟩

/-- The space that a file takes behind the table. -/
def File.size (f : File) : ℕ := f.content.length

/-- Where the contents of file `k` are in the image. -/
def offsetOf (files : List File) (k : ℕ) : ℕ := stop File.size 4868 (files.take k)

/-- The header at `a` is that of a file with the given contents offset. -/
structure HeaderAt (m : Mem) (a : ℕ) (f : File) (offset : ℕ) : Prop where
  name : ∀ k (h : k < f.name.length), m (a + 1 + k) = f.name[k]
  nul : m (a + 1 + f.name.length) = 0
  offset_eq : m.read32 (a + 68) = offset
  length_eq : m.read32 (a + 72) = f.size

/-- A header depends on its 76 bytes only, and may be read elsewhere. -/
theorem HeaderAt.move {m m' : Mem} {a b : ℕ} {f : File} {offset : ℕ} (h : HeaderAt m a f offset)
    (hname : f.name.length ≤ 63) (ha : a + 76 ≤ 4294967296) (hb : b + 76 ≤ 4294967296)
    (hm : ∀ k < 76, m' (b + k) = m (a + k)) : HeaderAt m' b f offset := by
  have hword : ∀ k, k + 4 ≤ 76 → m'.read32 (b + k) = m.read32 (a + k) := by
    intro k hk
    have hbyte : ∀ i < 4, m' (w32 (b + k + i)) = m (w32 (a + k + i)) := by
      intro i hi
      rw [w32_of_lt (by omega), w32_of_lt (by omega), Nat.add_assoc, Nat.add_assoc]
      exact hm (k + i) (by omega)
    have h0 := hbyte 0 (by omega)
    simp only [Nat.add_zero] at h0
    simp only [Mem.read32, h0, hbyte 1 (by omega), hbyte 2 (by omega), hbyte 3 (by omega)]
  refine ⟨fun k hk => ?_, ?_, (hword 68 (by omega)).trans h.offset_eq,
    (hword 72 (by omega)).trans h.length_eq⟩
  · rw [Nat.add_assoc, hm (1 + k) (by omega), ← Nat.add_assoc, h.name k hk]
  · rw [Nat.add_assoc, hm (1 + f.name.length) (by omega), ← Nat.add_assoc, h.nul]

/-- What one round of the loop writes. -/
def writeHeader (t : Mem) (i off : ℕ) (f : File) : Mem :=
  (((t.load (76 * i + 1) (f.name ++ [0])).write32 (76 * i + 68) off).write32 (76 * i + 72)
    f.content.length).load (76 * i) [0xBF]

theorem writeHeader_outside (t : Mem) {i : ℕ} (off : ℕ) {f : File} (hi : i < 64)
    (hname : f.name.length ≤ 63) {x : ℕ} (hx : x < 76 * i ∨ 76 * (i + 1) ≤ x) :
    writeHeader t i off f x = t x := by
  have hlen : (f.name ++ [0]).length = f.name.length + 1 := by simp
  rw [writeHeader, Mem.load_outside _ (by simp; omega) (by simp; omega),
    Mem.write32_outside _ _ (by omega) (by omega), Mem.write32_outside _ _ (by omega) (by omega),
    Mem.load_outside _ (by omega) (by omega)]

theorem writeHeader_at (t : Mem) {i off : ℕ} {f : File} (hi : i < 64)
    (hname : f.name.length ≤ 63) (hoff : off < 4294967296) (hsize : f.size < 4294967296) :
    HeaderAt (writeHeader t i off f) (76 * i) f off := by
  have hlen : (f.name ++ [0]).length = f.name.length + 1 := by simp
  -- the bytes of the name are not written again
  have hbyte : ∀ k < f.name.length + 1,
      writeHeader t i off f (76 * i + 1 + k) = (f.name ++ [0]).getD k 0 := by
    intro k hk
    have hbehind : 76 * i + 1 + k < 76 * i ∨ 76 * i + [0xBF].length ≤ 76 * i + 1 + k :=
      .inr (by rw [List.length_singleton]; omega)
    rw [writeHeader, Mem.load_outside _ (by simp; omega) hbehind,
      Mem.write32_outside _ _ (by omega) (by omega), Mem.write32_outside _ _ (by omega) (by omega),
      Mem.load_apply _ (by omega) (by omega), List.getD_eq_getElem _ _ (by omega)]
  -- the magic number is in front of the words
  have hword : ∀ k, 1 ≤ k → k + 4 ≤ 76 → (writeHeader t i off f).read32 (76 * i + k) =
      (((t.load (76 * i + 1) (f.name ++ [0])).write32 (76 * i + 68) off).write32 (76 * i + 72)
        f.content.length).read32 (76 * i + k) := by
    intro k h1 h2
    refine Mem.read32_congr fun x hx => ?_
    have := hx.le_lt (by omega)
    exact Mem.load_outside _ (by simp; omega) (by simp; omega)
  refine ⟨fun k hk => ?_, ?_, ?_, ?_⟩
  · rw [hbyte k (by omega), List.getD_eq_getElem _ _ (by omega), List.getElem_append_left hk]
  · rw [hbyte _ (Nat.lt_succ_self _)]
    simp
  · rw [hword 68 (by omega) (by omega),
      Mem.read32_write32_of_disjoint _ _ (by omega) (by omega) (by omega), Mem.read32_write32,
      w32_of_lt hoff]
  · rw [hword 72 (by omega) (by omega), Mem.read32_write32, ← File.size, w32_of_lt hsize]

/-- The loop writes the headers of the files, and nothing before them. -/
theorem fillHeaders_files (fs : List File) (i off : ℕ) (t : Mem) (hi : i + fs.length ≤ 64)
    (hname : ∀ f ∈ fs, f.name.length ≤ 63) (hoff : stop File.size off fs < 4294967296) :
    ∃ t', fillHeaders (fs.map File.arg) i off t = some t' ∧ (∀ x < 76 * i, t' x = t x) ∧
      ∀ k (hk : k < fs.length),
        HeaderAt t' (76 * (i + k)) fs[k] (stop File.size off (fs.take k)) := by
  induction fs generalizing i off t with
  | nil => exact ⟨t, rfl, fun _ _ => rfl, fun _ hk => absurd hk (by simp)⟩
  | cons f fs ih =>
      obtain ⟨hf, hname⟩ := List.forall_mem_cons.mp hname
      rw [List.length_cons] at hi
      rw [stop_cons] at hoff
      have hle := le_stop File.size (off + f.size) fs
      have hnext : w32 (off + f.content.length) = off + f.size := by
        rw [← File.size, w32_of_lt (by omega)]
      obtain ⟨t', hfill, hbelow, hhdr⟩ := ih (i + 1) (off + f.size) (writeHeader t i off f)
        (by omega) hname hoff
      refine ⟨t', ?_, fun x hx => ?_, fun k hk => ?_⟩
      · rw [List.map_cons, fillHeaders]
        simp only [File.arg, hnext]
        exact hfill
      · rw [hbelow x (by omega), writeHeader_outside t off (by omega) hf (by omega)]
      · cases k with
        | zero =>
            change HeaderAt t' (76 * i) f off
            have hat : HeaderAt (writeHeader t i off f) (76 * i) f off :=
              writeHeader_at t (by omega) hf (by omega) (by omega)
            exact hat.move hf (by omega) (by omega) fun k hk => hbelow _ (by omega)
        | succ k =>
            have h := hhdr k (by simpa using hk)
            rw [show i + (k + 1) = i + 1 + k by omega]
            exact h

/-! ### The image -/

/-- Files with names that fit a header. -/
def FitNames (files : List File) : Prop := ∀ f ∈ files, f.name.length ≤ 63

/-- For at most 63 files, `nheaders` is their number. -/
theorem nheaders_eq {args : List Arg} (h : args.length ≤ 63) : nheaders args = args.length := by
  have hargc : argc args = 1 + 2 * args.length := by
    rw [argc, toChar]
    omega
  rw [nheaders, hargc, Int.tdiv_eq_ediv_of_nonneg (by omega)]
  omega

/-- 64 files need 129 arguments, which a `char` holds as `-127`. -/
theorem nheaders_64 {args : List Arg} (h : args.length = 64) : nheaders args = -64 := by
  rw [nheaders, argc, h]
  rfl

/-- The image of at most 63 files: their number, the table with their headers, and their
contents. -/
theorem image_eq {files : List File} (hn : files.length ≤ 63) (hnames : FitNames files)
    (hsize : stop File.size 4868 files < 4294967296) (junk : Mem) :
    ∃ t : Mem, putToRamdisk junk (files.map File.arg) = some
        (le32 files.length ++ t.bytes 0 4864 ++ (files.map File.content).flatten) ∧
      ∀ k (hk : k < files.length), HeaderAt t (76 * k) files[k] (offsetOf files k) := by
  have hcount : nheaders (files.map File.arg) = files.length := by
    rw [nheaders_eq (by simpa using hn), List.length_map]
  have htake : (files.map File.arg).take (files.length : ℤ).toNat = files.map File.arg := by
    rw [Int.toNat_natCast, ← List.length_map (f := File.arg), List.take_length]
  have hhosts : (files.map File.arg).filterMap Arg.host = files.map File.content := by
    rw [List.filterMap_map]
    exact List.filterMap_eq_map (f := File.content) ▸ rfl
  obtain ⟨t, hfill, -, hhdr⟩ := fillHeaders_files files 0 4868 junk (by omega) hnames hsize
  have hlow : ((files.length : ℤ) % 4294967296).toNat = files.length := by omega
  refine ⟨t, ?_, fun k hk => ?_⟩
  · simp only [putToRamdisk, hcount, htake, hfill, hhosts, hlow]
  · have h := hhdr k hk
    rwa [Nat.zero_add] at h

end Owmice.Ramdisk
