import Owmice.CString
import Owmice.Memory

/-! # The ramdisk file system (`io/initrd.h`, `io/vfs.h`)

The kernel reads the ramdisk where the boot loader has put it.  `initrd_init` makes a node for
every header and turns the offsets in the headers into addresses; `initrd_finddir` looks names
up, and `initrd_read` copies a file out of the image.

The nodes are objects of their own: they lie behind the image in memory.  The pointers to the
functions of a node are flags that tell which of them are set.

* `initrdInit_eq`: the nodes that `initrd_init` makes, and the memory that it leaves. -/

namespace Owmice.Vfs

/-- `FS_FILE`. -/
def fsFile : ℕ := 1
/-- `FS_DIRECTORY`. -/
def fsDirectory : ℕ := 2
/-- `INITRD_BUFFER_SIZE`. -/
def initrdBufferSize : ℕ := 1048576

/-- `fs_node_t`; `read`, `readdir` and `finddir` tell whether the pointers are set. -/
structure FsNode where
  name : List UInt8
  mask : ℕ
  uid : ℕ
  gid : ℕ
  flags : ℕ
  inode : ℕ
  length : ℕ
  impl : ℕ
  read : Bool
  readdir : Bool
  finddir : Bool
deriving DecidableEq

/-- The name `initrd`. -/
def rootName : List UInt8 := [105, 110, 105, 116, 114, 100]
/-- The name `mtp`. -/
def mtpName : List UInt8 := [109, 116, 112]

/-- `*initrd_root`. -/
def initrdRoot : FsNode := ⟨rootName, 0, 0, 0, fsDirectory, 0, 0, 0, false, true, true⟩
/-- `*initrd_mtp`. -/
def initrdMtp : FsNode := ⟨mtpName, 0, 0, 0, fsDirectory, 0, 0, 0, false, true, true⟩

/-- Pointers to nodes. -/
inductive NodeRef where
  | root
  | mtp
  | file (i : ℕ)
deriving DecidableEq

/-- The variables of the file system, with the memory that holds the image. -/
structure Initrd where
  mem : Mem
  fileHeaders : ℕ
  rootNodes : List FsNode
  nrootNodes : ℤ

/-- A node that no one has written. -/
def freshNode : FsNode := ⟨[], 0, 0, 0, 0, 0, 0, 0, false, false, false⟩

/-- The node behind a pointer. -/
def Initrd.node (r : Initrd) : NodeRef → FsNode
  | .root => initrdRoot
  | .mtp => initrdMtp
  | .file i => r.rootNodes.getD i freshNode

/-- The address of `file_headers[i]`. -/
def Initrd.header (r : Initrd) (i : ℕ) : ℕ := r.fileHeaders + 76 * i

/-- The node that `initrd_init` makes for the header at `h`; its name is an array of 128
bytes. -/
def fileNode (m : Mem) (h i : ℕ) : FsNode where
  name := cstring (fun x => m (w32 x)) 128 (h + 1)
  mask := 0
  uid := 0
  gid := 0
  flags := fsFile
  inode := i
  length := m.read32 (h + 72)
  impl := 0
  read := true
  readdir := false
  finddir := false

/-- The loop of `initrd_init`, which reads the number of files in every round; `none` when it
has not ended. -/
def initLoop (location : ℕ) : ℕ → ℕ → Mem → List FsNode → Option (Mem × List FsNode)
  | 0, _, _, _ => none
  | fuel + 1, i, m, nodes =>
      if i < m.read32 location then
        let h := location + 4 + 76 * i
        let m := m.write32 (h + 68) (m.read32 (h + 68) + location)
        initLoop location fuel (i + 1) m (nodes ++ [fileNode m h i])
      else some (m, nodes)

/-- A word as an `int`. -/
def toInt32 (n : ℕ) : ℤ := if n < 2147483648 then n else n - 4294967296

/-- `initrd_init`. -/
def initrdInit (fuel : ℕ) (m : Mem) (location : ℕ) : Option Initrd :=
  (initLoop location fuel 0 m []).map fun p =>
    { mem := p.1
      fileHeaders := location + 4
      rootNodes := p.2
      nrootNodes := toInt32 (m.read32 location) }

/-- `initrd_read`: the bytes that it copies to the buffer. -/
def initrdRead (r : Initrd) (node : FsNode) (offset size : ℕ) : List UInt8 :=
  let headerOffset := r.mem.read32 (r.header node.inode + 68)
  let headerLength := r.mem.read32 (r.header node.inode + 72)
  if headerLength < offset then []
  else
    let size := if headerLength < w32 (offset + size) then sub32 headerLength offset else size
    if initrdBufferSize < size then [] else r.mem.bytes (headerOffset + offset) size

/-- `initrd_finddir`. -/
def initrdFinddir (r : Initrd) (node : NodeRef) (name : List UInt8) : Option NodeRef :=
  if node = .root ∧ streq name mtpName then some .mtp
  else
    ((List.range r.nrootNodes.toNat).find? fun i => streq name (r.node (.file i)).name).map .file

/-- `finddir_fs`. -/
def finddirFs (r : Initrd) (node : NodeRef) (name : List UInt8) : Option NodeRef :=
  if (r.node node).flags % 8 = fsDirectory ∧ (r.node node).finddir then initrdFinddir r node name
  else none

/-- `read_fs`. -/
def readFs (r : Initrd) (node : NodeRef) (offset size : ℕ) : List UInt8 :=
  if (r.node node).read then initrdRead r (r.node node) offset size else []

/-! ### What `initrd_init` makes -/

/-- The memory when the offsets of the first `k` headers have been turned into addresses. -/
def relocated (m : Mem) (location : ℕ) : ℕ → Mem
  | 0 => m
  | k + 1 =>
      let m := relocated m location k
      let h := location + 4 + 76 * k
      m.write32 (h + 68) (m.read32 (h + 68) + location)

/-- Byte `y` belongs to the offset of one of the first `k` headers. -/
def OffsetByte (location k y : ℕ) : Prop :=
  ∃ j < k, location + 4 + 76 * j + 68 ≤ y ∧ y < location + 4 + 76 * j + 72

theorem relocated_only {m : Mem} {location k : ℕ} (hfit : location + 4 + 76 * k ≤ 4294967296) :
    Mem.Only (OffsetByte location k) m (relocated m location k) := by
  induction k with
  | zero => exact .refl _ _
  | succ k ih =>
      specialize ih (by omega)
      rw [relocated]
      apply Mem.Only.write32
      · apply ih.mono
        rintro y ⟨j, hj, hy⟩
        exact ⟨j, by omega, hy⟩
      · intro y hy
        have := hy.le_lt (by omega)
        exact ⟨k, by omega, by omega⟩

/-- The number of files is not among the words that are relocated. -/
theorem relocated_count {m : Mem} {location k : ℕ} (hfit : location + 4 + 76 * k ≤ 4294967296) :
    (relocated m location k).read32 location = m.read32 location := by
  apply (relocated_only hfit).read32
  rintro y hy ⟨j, hj, h1, h2⟩
  have := hy.le_lt (by omega)
  omega

theorem initLoop_eq {m : Mem} {location n : ℕ} (hn : m.read32 location = n)
    (hfit : location + 4 + 76 * n ≤ 4294967296) :
    ∀ (fuel i : ℕ) (nodes : List FsNode), i ≤ n → n - i < fuel →
      initLoop location fuel i (relocated m location i) nodes =
        some (relocated m location n, nodes ++ (List.range' i (n - i)).map fun j =>
          fileNode (relocated m location (j + 1)) (location + 4 + 76 * j) j)
  | 0, _, _, _, hfuel => absurd hfuel (Nat.not_lt_zero _)
  | fuel + 1, i, nodes, hi, hfuel => by
      have hcount : (relocated m location i).read32 location = n :=
        (relocated_count (by omega)).trans hn
      rw [initLoop, hcount]
      by_cases hlt : i < n
      · have ih := initLoop_eq hn hfit fuel (i + 1)
          (nodes ++ [fileNode (relocated m location (i + 1)) (location + 4 + 76 * i) i])
          (by omega) (by omega)
        rw [if_pos hlt, show n - i = n - (i + 1) + 1 by omega, List.range'_succ, List.map_cons,
          List.append_cons, ← ih]
        rfl
      · obtain rfl : i = n := by omega
        rw [if_neg hlt, Nat.sub_self]
        simp

/-- `initrd_init` ends after one round for every file. -/
theorem initrdInit_eq {m : Mem} {location n fuel : ℕ} (hn : m.read32 location = n)
    (hfit : location + 4 + 76 * n ≤ 4294967296) (hfuel : n < fuel) :
    initrdInit fuel m location = some
      { mem := relocated m location n
        fileHeaders := location + 4
        rootNodes := (List.range n).map fun j =>
          fileNode (relocated m location (j + 1)) (location + 4 + 76 * j) j
        nrootNodes := toInt32 n } := by
  have hloop := initLoop_eq hn hfit fuel 0 [] (Nat.zero_le _) hfuel
  rw [relocated, List.nil_append, Nat.sub_zero, ← List.range_eq_range'] at hloop
  rw [initrdInit, hloop, hn]
  rfl

end Owmice.Vfs
