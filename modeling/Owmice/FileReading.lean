import Owmice.Initrd
import Owmice.MemMove
import Owmice.Runs

/-! # Reading a file in pieces (`read_fs`)

A program reads a file with calls of `read_fs`, each from where the one before ended.  The
functions are those of `Initrd`, with the buffer that the bytes are copied to.

* `FileAt`: a node with a file behind it;
* `readFsTo_spec`: one call;
* `read_sequential`: any sequence of calls, on any ramdisk. -/

namespace Owmice.Vfs

/-- `initrd_read`: the number of bytes, and the memory behind the copy to `buffer`. -/
def initrdReadTo (r : Initrd) (node : FsNode) (offset size buffer : ℕ) : ℕ × Initrd :=
  let headerOffset := r.mem.read32 (r.header node.inode + 68)
  let headerLength := r.mem.read32 (r.header node.inode + 72)
  if headerLength < offset then (0, r)
  else
    let size := if headerLength < w32 (offset + size) then sub32 headerLength offset else size
    if initrdBufferSize < size then (0, r)
    else (size, { r with mem := r.mem.memcpy buffer (w32 (headerOffset + offset)) size })

/-- `read_fs`. -/
def readFsTo (r : Initrd) (node : NodeRef) (offset size buffer : ℕ) : ℕ × Initrd :=
  if (r.node node).read then initrdReadTo r (r.node node) offset size buffer else (0, r)

/-- The bytes from `a` to `a + n - 1` and those from `b` to `b + k - 1` are different ones. -/
def Disjoint32 (a n b k : ℕ) : Prop := a + n ≤ b ∨ b + k ≤ a

/-- The node has a header and a file `f`: its contents, as the header tells where they are. -/
structure FileAt (r : Initrd) (node : NodeRef) (f : List UInt8) : Prop where
  read : (r.node node).read = true
  header_le : r.header (r.node node).inode + 76 ≤ 4294967296
  length_eq : r.mem.read32 (r.header (r.node node).inode + 72) = f.length
  fits : r.mem.read32 (r.header (r.node node).inode + 68) + f.length ≤ 4294967296
  bytes_eq : r.mem.bytes (r.mem.read32 (r.header (r.node node).inode + 68)) f.length = f

/-- A buffer of `size` bytes that neither meets the header of the node nor its file. -/
structure BufferFor (r : Initrd) (node : NodeRef) (f : List UInt8) (size buffer : ℕ) : Prop where
  fits : buffer + size ≤ 4294967296
  header : Disjoint32 buffer size (r.header (r.node node).inode) 76
  file : Disjoint32 buffer size (r.mem.read32 (r.header (r.node node).inode + 68)) f.length

/-- A call of `read_fs`. -/
structure ReadCall where
  size : ℕ
  buffer : ℕ

/-- A request that the ramdisk serves. -/
def ReadCall.Valid (c : ReadCall) (r : Initrd) (node : NodeRef) (f : List UInt8) : Prop :=
  1 ≤ c.size ∧ c.size ≤ initrdBufferSize ∧ BufferFor r node f c.size c.buffer

section single

variable {r : Initrd} {node : NodeRef} {f : List UInt8} {offset : ℕ} {c : ReadCall}

/-- The bytes of a part of a file. -/
theorem FileAt.bytes_part (h : FileAt r node f) {n : ℕ} (hn : offset + n ≤ f.length) :
    r.mem.bytes (r.mem.read32 (r.header (r.node node).inode + 68) + offset) n =
      (f.drop offset).take n := by
  have hlen : n = ((f.drop offset).take n).length := by
    rw [List.length_take, List.length_drop]
    omega
  refine List.ext_getElem (by rw [Mem.length_bytes]; exact hlen) fun i hi hi' => ?_
  rw [Mem.length_bytes] at hi
  rw [Mem.getElem_bytes, List.getElem_take, List.getElem_drop]
  have hf := Mem.getElem_bytes r.mem (r.mem.read32 (r.header (r.node node).inode + 68)) f.length
    (by rw [Mem.length_bytes]; omega : offset + i < _)
  rw [Nat.add_assoc, ← hf]
  simp only [h.bytes_eq]

/-- A call from within the file returns the bytes that are left, as far as they are asked for, and
changes nothing but their places in the buffer. -/
theorem readFsTo_spec (h : FileAt r node f) (hlong : f.length < 4294967296 - initrdBufferSize)
    (hoff : offset ≤ f.length) (hc : c.Valid r node f) :
    readFsTo r node offset c.size c.buffer = (min c.size (f.length - offset),
      { r with mem := r.mem.load c.buffer ((f.drop offset).take (min c.size (f.length - offset))) }) := by
  obtain ⟨h1, h2, hbuf⟩ := hc
  have hfit := h.fits
  rw [initrdBufferSize] at hlong h2
  -- what is left after the two cuts
  have hsize : (if f.length < w32 (offset + c.size) then sub32 f.length offset else c.size) =
      min c.size (f.length - offset) := by
    rw [w32_of_lt (by omega)]
    split
    case isTrue hcut =>
      rw [sub32_of_le hoff (by omega)]
      omega
    case isFalse hcut => omega
  have hle : min c.size (f.length - offset) ≤ c.size := Nat.min_le_left _ _
  have hle' : offset + min c.size (f.length - offset) ≤ f.length := by omega
  obtain ⟨n, hn⟩ : ∃ n, n = min c.size (f.length - offset) := ⟨_, rfl⟩
  rw [← hn] at hle hle' hsize ⊢
  have hmem : r.mem.memcpy c.buffer
      (w32 (r.mem.read32 (r.header (r.node node).inode + 68) + offset)) n =
        r.mem.load c.buffer ((f.drop offset).take n) := by
    have hbufit := hbuf.fits
    have hdis := hbuf.file
    rw [Disjoint32] at hdis
    by_cases hzero : n = 0
    · rw [hzero, Mem.memcpy, Mem.copyUp, List.take_zero]
      funext x
      simp [Mem.load]
    · rw [w32_of_lt (by omega), Mem.memcpy_eq_load (by omega) (by omega) (by omega),
        h.bytes_part hle']
  rw [readFsTo, if_pos h.read, initrdReadTo]
  simp only [h.length_eq, hsize]
  rw [if_neg (by omega), if_neg (by rw [initrdBufferSize]; omega), hmem]

/-- A call from behind the file returns nothing and writes nothing. -/
theorem readFsTo_beyond (h : FileAt r node f) (size buffer : ℕ) (hoff : f.length < offset) :
    readFsTo r node offset size buffer = (0, r) := by
  rw [readFsTo, if_pos h.read, initrdReadTo]
  simp only [h.length_eq, hoff, if_true]

/-- So does a call for a directory. -/
theorem readFsTo_directory (r : Initrd) (offset size buffer : ℕ) :
    readFsTo r .root offset size buffer = (0, r) ∧ readFsTo r .mtp offset size buffer = (0, r) :=
  ⟨rfl, rfl⟩

/-- The file stays where it is when the bytes of its header and its own are not changed. -/
theorem FileAt.congr (h : FileAt r node f) {m : Mem}
    (hhead : ∀ y, r.header (r.node node).inode ≤ y → y < r.header (r.node node).inode + 76 →
      m y = r.mem y)
    (hbytes : ∀ y, r.mem.read32 (r.header (r.node node).inode + 68) ≤ y →
      y < r.mem.read32 (r.header (r.node node).inode + 68) + f.length → m y = r.mem y) :
    FileAt { r with mem := m } node f ∧
      m.read32 (r.header (r.node node).inode + 68) =
        r.mem.read32 (r.header (r.node node).inode + 68) := by
  have hle := h.header_le
  have hfit := h.fits
  have hword : ∀ k ≤ 72, m.read32 (r.header (r.node node).inode + k) =
      r.mem.read32 (r.header (r.node node).inode + k) := by
    intro k hk
    refine Mem.read32_congr fun x hx => hhead x ?_ ?_
    all_goals
      have := hx.le_lt (by omega)
      omega
  refine ⟨⟨h.read, hle, (hword 72 le_rfl).trans h.length_eq, ?_, ?_⟩, hword 68 (by omega)⟩
  · exact (congrArg (· + f.length) (hword 68 (by omega))).trans_le hfit
  · refine (congrArg₂ _ (hword 68 (by omega)) rfl).trans (Eq.trans ?_ h.bytes_eq)
    refine Mem.bytes_congr fun i hi => ?_
    rw [w32_of_lt (by omega)]
    exact hbytes _ (by omega) (by omega)

/-- So it does when something is loaded into a buffer elsewhere. -/
theorem FileAt.load (h : FileAt r node f) {size buffer : ℕ} (hbuf : BufferFor r node f size buffer)
    {bs : List UInt8} (hbs : bs.length ≤ size) :
    FileAt { r with mem := r.mem.load buffer bs } node f ∧
      (r.mem.load buffer bs).read32 (r.header (r.node node).inode + 68) =
        r.mem.read32 (r.header (r.node node).inode + 68) := by
  have hbufit := hbuf.fits
  have hdis := hbuf.header
  have hdis' := hbuf.file
  rw [Disjoint32] at hdis hdis'
  apply h.congr
  · intro y h1 h2
    exact Mem.load_outside _ (by omega) (by omega)
  · intro y h1 h2
    exact Mem.load_outside _ (by omega) (by omega)

end single

/-! ### Sequences of calls -/

/-- A program that reads a file: the offset of its next call, and what it has got so far. -/
structure Reader where
  fs : Initrd
  offset : ℕ
  got : List UInt8

/-- The next call: it starts where the ones before have ended. -/
def Reader.next (node : NodeRef) (s : Reader) (c : ReadCall) : Reader :=
  let (n, fs) := readFsTo s.fs node s.offset c.size c.buffer
  ⟨fs, s.offset + n, s.got ++ fs.mem.bytes c.buffer n⟩

/-- A call of `read_fs` for the file `f`, into a buffer elsewhere. -/
inductive ReadStep (node : NodeRef) (f : List UInt8) : Reader → ReadCall → Reader → Prop
  | call {s : Reader} {c : ReadCall} :
      c.Valid s.fs node f → ReadStep node f s c (s.next node c)

/-- What a reader can rely on. -/
structure Reads (node : NodeRef) (f : List UInt8) (s : Reader) : Prop where
  /-- The reader has got the file up to the offset. -/
  got_eq : s.got = f.take s.offset
  /-- A call returns what is left, as far as it is asked for. -/
  count : ∀ c : ReadCall, c.Valid s.fs node f →
    (readFsTo s.fs node s.offset c.size c.buffer).1 = min c.size (f.length - s.offset)
  /-- These bytes of the file are then in the buffer. -/
  copied : ∀ c : ReadCall, c.Valid s.fs node f →
    (readFsTo s.fs node s.offset c.size c.buffer).2.mem.bytes c.buffer
      (min c.size (f.length - s.offset)) = (f.drop s.offset).take (min c.size (f.length - s.offset))
  /-- No other byte has changed. -/
  only : ∀ c : ReadCall, c.Valid s.fs node f →
    Mem.Only (fun x => c.buffer ≤ x ∧ x < c.buffer + min c.size (f.length - s.offset)) s.fs.mem
      (readFsTo s.fs node s.offset c.size c.buffer).2.mem
  /-- A call returns 0 exactly if the reader has got the whole file. -/
  done : ∀ c : ReadCall, c.Valid s.fs node f →
    ((readFsTo s.fs node s.offset c.size c.buffer).1 = 0 ↔ s.got = f)
  /-- From behind the file nothing is read. -/
  beyond : ∀ offset size buffer, f.length < offset →
    readFsTo s.fs node offset size buffer = (0, s.fs)
  /-- Nor is anything read from a directory. -/
  directory : ∀ offset size buffer, readFsTo s.fs .root offset size buffer = (0, s.fs) ∧
    readFsTo s.fs .mtp offset size buffer = (0, s.fs)

/-- The file stays in place, and the reader has got it up to the offset. -/
structure ReaderInv (node : NodeRef) (f : List UInt8) (s : Reader) : Prop where
  file : FileAt s.fs node f
  offset_le : s.offset ≤ f.length
  got_eq : s.got = f.take s.offset

section sequence

variable {node : NodeRef} {f : List UInt8} {s s' : Reader}

theorem bytes_load_take {m : Mem} {buffer n : ℕ} {bs : List UInt8} (hn : n = bs.length)
    (hfit : buffer + n ≤ 4294967296) : (m.load buffer bs).bytes buffer n = bs := by
  rw [hn] at hfit ⊢
  exact Mem.bytes_load m hfit

theorem ReaderInv.reads (h : ReaderInv node f s)
    (hlong : f.length < 4294967296 - initrdBufferSize) : Reads node f s := by
  have hoff := h.offset_le
  have hlen : ∀ c : ReadCall, min c.size (f.length - s.offset) =
      ((f.drop s.offset).take (min c.size (f.length - s.offset))).length := fun c => by
    rw [List.length_take, List.length_drop]
    omega
  refine ⟨h.got_eq, fun c hc => ?_, fun c hc => ?_, fun c hc => ?_, fun c hc => ?_,
    fun offset size buffer hlt => readFsTo_beyond h.file size buffer hlt,
    fun offset size buffer => readFsTo_directory s.fs offset size buffer⟩
  · rw [readFsTo_spec h.file hlong hoff hc]
  · have := hc.2.2.fits
    rw [readFsTo_spec h.file hlong hoff hc]
    exact bytes_load_take (hlen c) (by omega)
  · have := hc.2.2.fits
    rw [readFsTo_spec h.file hlong hoff hc]
    intro x hx
    rw [hlen c] at hx
    refine Mem.load_outside _ (by rw [← hlen c]; omega) (by omega)
  · have hpos := hc.1
    rw [readFsTo_spec h.file hlong hoff hc, h.got_eq]
    constructor
    · intro hz
      exact List.take_of_length_le (by omega)
    · intro hall
      have := congrArg List.length hall
      rw [List.length_take] at this
      omega

theorem step_readerInv (hlong : f.length < 4294967296 - initrdBufferSize) {c : ReadCall}
    (h : ReaderInv node f s) (hs : ReadStep node f s c s') : ReaderInv node f s' := by
  cases hs with
  | call hc =>
      have hoff := h.offset_le
      have hbuf := hc.2.2.fits
      rw [Reader.next, readFsTo_spec h.file hlong hoff hc]
      obtain ⟨n, hn⟩ : ∃ n, n = min c.size (f.length - s.offset) := ⟨_, rfl⟩
      rw [← hn]
      have hlen : n = ((f.drop s.offset).take n).length := by
        rw [List.length_take, List.length_drop]
        omega
      refine ⟨(h.file.load hc.2.2 (by omega)).1, ?_, ?_⟩
      · simp only
        omega
      · simp only [bytes_load_take hlen (by omega : c.buffer + n ≤ 4294967296), h.got_eq]
        rw [List.take_add]

/-- In every state of a run of `read_fs` calls from the beginning of a file on, the contract
holds. -/
theorem read_run {r : Initrd} {tr : List (Reader × ReadCall)} (hfile : FileAt r node f)
    (hlong : f.length < 4294967296 - initrdBufferSize)
    (hrun : Run (ReadStep node f) ⟨r, 0, []⟩ tr s) : ∀ x ∈ visited tr s, Reads node f x := by
  have h₀ : ReaderInv node f ⟨r, 0, []⟩ := ⟨hfile, Nat.zero_le _, by simp⟩
  intro x hx
  exact (hrun.invariant_visited (G := fun _ _ => True)
    (fun _ _ _ h _ hs => step_readerInv hlong h hs) h₀ (fun _ _ => trivial) x hx).reads hlong

end sequence

/-! ### Loaded ramdisks -/

/-- The contents of file `i`, from where its header says. -/
def Initrd.contents (r : Initrd) (i : ℕ) : List UInt8 :=
  r.mem.bytes (r.mem.read32 (r.header i + 68)) (r.mem.read32 (r.header i + 72))

/-- The nodes that `initrd_init` makes have files behind them. -/
theorem fileAt_init {m : Mem} {location n fuel : ℕ} (hn : m.read32 location = n)
    (hfit : location + 4 + 76 * n ≤ 4294967296) (hfuel : n < fuel) :
    ∃ r, initrdInit fuel m location = some r ∧ r.fileHeaders = location + 4 ∧ ∀ i < n,
      r.mem.read32 (r.header i + 68) + r.mem.read32 (r.header i + 72) ≤ 4294967296 →
        FileAt r (.file i) (r.contents i) := by
  refine ⟨_, initrdInit_eq hn hfit hfuel, rfl, fun i hi hend => ?_⟩
  have hnode : ∀ r : Initrd, r.rootNodes = (List.range n).map (fun j =>
      fileNode (relocated m location (j + 1)) (location + 4 + 76 * j) j) →
        (r.node (.file i)).read = true ∧ (r.node (.file i)).inode = i := by
    intro r hr
    simp only [Initrd.node, hr, List.getD_eq_getElem?_getD, List.getElem?_map,
      List.getElem?_range hi, Option.map_some, Option.getD_some, fileNode, and_self]
  obtain ⟨r, hr⟩ : ∃ r : Initrd, r = { mem := relocated m location n
                                       fileHeaders := location + 4
                                       rootNodes := (List.range n).map fun j =>
                                         fileNode (relocated m location (j + 1))
                                           (location + 4 + 76 * j) j
                                       nrootNodes := toInt32 n } := ⟨_, rfl⟩
  rw [← hr] at hend ⊢
  obtain ⟨hread, hinode⟩ := hnode r (by rw [hr])
  have hlen : (r.contents i).length = r.mem.read32 (r.header i + 72) := Mem.length_bytes _ _ _
  refine ⟨hread, ?_, ?_, ?_, ?_⟩
  · rw [hinode, Initrd.header, hr]
    simp only
    omega
  · rw [hinode, hlen]
  · rw [hinode, hlen]
    exact hend
  · rw [hinode, hlen]
    rfl

/-- On any ramdisk that has been loaded, calls of `read_fs` read a file from its beginning to its
end. -/
theorem read_sequential {m : Mem} {location n fuel : ℕ} (hn : m.read32 location = n)
    (hfit : location + 4 + 76 * n ≤ 4294967296) (hfuel : n < fuel) :
    ∃ r, initrdInit fuel m location = some r ∧ ∀ i < n,
      r.mem.read32 (r.header i + 68) + r.mem.read32 (r.header i + 72) ≤ 4294967296 →
      (r.contents i).length < 4294967296 - initrdBufferSize →
      ∀ (tr : List (Reader × ReadCall)) (s : Reader),
        Run (ReadStep (.file i) (r.contents i)) ⟨r, 0, []⟩ tr s →
          ∀ x ∈ visited tr s, Reads (.file i) (r.contents i) x := by
  obtain ⟨r, hr, -, hfile⟩ := fileAt_init hn hfit hfuel
  exact ⟨r, hr, fun i hi hend hlong tr s hrun => read_run (hfile i hi hend) hlong hrun⟩

/-- A ramdisk at 4096 with one file, of three bytes. -/
def oneFile : Mem :=
  Mem.load (Mem.load (fun _ => 0) 4096 [1]) 4168 [80, 0, 0, 0, 3, 0, 0, 0, 97, 98, 99]

/-- The ramdisk that `initrd_init` makes of it. -/
def oneRamdisk : Initrd where
  mem := relocated oneFile 4096 1
  fileHeaders := 4100
  rootNodes := [fileNode (relocated oneFile 4096 1) 4100 0]
  nrootNodes := toInt32 1

theorem initrdInit_oneFile : initrdInit 2 oneFile 4096 = some oneRamdisk := by
  have hcount : oneFile.read32 4096 = 1 := by decide +kernel
  exact initrdInit_eq hcount (by decide) (by decide)

instance (a n b k : ℕ) : Decidable (Disjoint32 a n b k) := by
  unfold Disjoint32
  infer_instance

instance (r : Initrd) (node : NodeRef) (f : List UInt8) (size buffer : ℕ) :
    Decidable (BufferFor r node f size buffer) :=
  decidable_of_iff (buffer + size ≤ 4294967296 ∧
    Disjoint32 buffer size (r.header (r.node node).inode) 76 ∧
      Disjoint32 buffer size (r.mem.read32 (r.header (r.node node).inode + 68)) f.length)
    ⟨fun h => ⟨h.1, h.2.1, h.2.2⟩, fun h => ⟨h.1, h.2, h.3⟩⟩

instance (r : Initrd) (node : NodeRef) (f : List UInt8) (c : ReadCall) :
    Decidable (c.Valid r node f) := by
  unfold ReadCall.Valid
  infer_instance

/-- Three calls for two bytes each: they get `ab`, `c` and nothing. -/
def threeReads : List ReadCall := [⟨2, 8192⟩, ⟨2, 8194⟩, ⟨2, 8196⟩]

/-- The theorem for this ramdisk and these calls, which read the file to its end. -/
theorem read_sequential_three : ∃ r, initrdInit 2 oneFile 4096 = some r ∧
    (threeReads.foldl (Reader.next (.file 0)) ⟨r, 0, []⟩).got = [97, 98, 99] ∧
      ∃ s, Run (ReadStep (.file 0) (r.contents 0)) ⟨r, 0, []⟩
          (traceOf (Reader.next (.file 0)) ⟨r, 0, []⟩ threeReads) s ∧
        ∀ x ∈ visited (traceOf (Reader.next (.file 0)) ⟨r, 0, []⟩ threeReads) s,
          Reads (.file 0) (r.contents 0) x := by
  have hcount : oneFile.read32 4096 = 1 := by decide +kernel
  obtain ⟨r, hr, hread⟩ := read_sequential hcount (by decide) (by decide : 1 < 2)
  obtain rfl := Option.some.inj (initrdInit_oneFile.symm.trans hr)
  have hvalid : ∀ p ∈ traceOf (Reader.next (.file 0)) ⟨oneRamdisk, 0, []⟩ threeReads,
      p.2.Valid p.1.fs (.file 0) (oneRamdisk.contents 0) := by
    decide +kernel
  have hrun : Run (ReadStep (.file 0) (oneRamdisk.contents 0)) ⟨oneRamdisk, 0, []⟩ _ _ :=
    .of_events threeReads _ fun p hp => .call (hvalid p hp)
  refine ⟨oneRamdisk, hr, by decide +kernel, _, hrun, ?_⟩
  exact hread 0 (by decide) (by decide +kernel) (by decide +kernel) _ _ hrun

end Owmice.Vfs
