import Mathlib.Data.List.DropRight
import Owmice.CString
import Owmice.FileReading

/-! # The name of the shell (`kmain`)

`kmain` reads the file `autostart.dat` into a fresh buffer of 128 bytes and runs the program whose
name it holds.  The buffer is cleared up to the first zero byte that is in it, the file is copied
without a zero byte behind it, and `trim` cuts white space off whatever string is then there.

* `cstr_trim`: `trim` on any string;
* `autostart_iff`: when the name is the contents of the file. -/

namespace Owmice.Vfs

/-- `isspace`. -/
def isspace (c : UInt8) : Bool := c = 32 || c = 10 || c = 9 || c = 11 || c = 12 || c = 13

/-- `ltrim`: the number of bytes by which the pointer moves. -/
def ltrim : List UInt8 → ℕ
  | [] => 0
  | c :: b => if isspace c then ltrim b + 1 else 0

/-- `rtrim` on the string at byte `s` of the buffer.  The loop walks down from the end of the
string, and goes on in front of the buffer, where the bytes are `before`, the nearest first. -/
def rtrim (before b : List UInt8) (s : ℕ) : List UInt8 × List UInt8 :=
  let back := s + strlen (b.drop s)
  let n := (((b.take back).reverse ++ before).takeWhile isspace).length
  if n ≤ back then (before, setAt b (back - n) 0) else (before.set (n - back - 1) 0, b)

/-- `trim`: the pointer, and the memory. -/
def trim (before b : List UInt8) : ℕ × List UInt8 × List UInt8 := (ltrim b, rtrim before b (ltrim b))

/-- `memcpy` to a buffer, from byte `i` on. -/
def putBytes (b : List UInt8) (i : ℕ) : List UInt8 → List UInt8
  | [] => b
  | c :: bs => putBytes (setAt b i c) (i + 1) bs

/-- The name `autostart.dat`. -/
def autostartFname : List UInt8 := [97, 117, 116, 111, 115, 116, 97, 114, 116, 46, 100, 97, 116]

/-- The name that `kmain` looks up: `b` are the bytes from the buffer on, and `before` those in front
of it; `none` when `kmain` dies before. -/
def kmainShellFname (r : Initrd) (before b : List UInt8) : Option (List UInt8) :=
  (finddirFs r .root autostartFname).map fun startNode =>
    let b := clearchar b
    let b := putBytes b 0 (readFs r startNode 0 128)
    let (s, _, b) := trim before b
    cstr (b.drop s)

/-! ### `trim` -/

/-- A text without white space at its ends. -/
def trimmed (l : List UInt8) : List UInt8 := (l.dropWhile isspace).rdropWhile isspace

theorem isspace_ne_zero {c : UInt8} (h : isspace c = true) : c ≠ 0 := by
  rintro rfl
  revert h
  decide

theorem ltrim_eq (b : List UInt8) : ltrim b = ((cstr b).takeWhile isspace).length := by
  induction b with
  | nil => rfl
  | cons c b ih =>
      rw [ltrim]
      split
      case isTrue h =>
        rw [ih]
        simp [cstr, isspace_ne_zero h, h]
      case isFalse h =>
        by_cases hc : c = 0
        · simp [cstr, hc]
        · simp [cstr, hc, h]

/-- What is left of a text when the white space before it has been cut off starts with something
else. -/
theorem not_forall_dropWhile {l : List UInt8} (h : l.dropWhile isspace ≠ []) :
    ¬ ∀ c ∈ l.dropWhile isspace, isspace c := by
  intro hall
  have hhead := List.head_dropWhile_not isspace h
  rw [hall _ (List.head_mem h)] at hhead
  cases hhead

/-- White space at the end of a text ends within the text if there is anything else in it. -/
theorem takeWhile_reverse_append {u : List UInt8} (rest : List UInt8) (h : ¬ ∀ c ∈ u, isspace c) :
    (u.reverse ++ rest).takeWhile isspace = u.reverse.takeWhile isspace := by
  rw [List.takeWhile_append, if_neg]
  intro hall
  apply h
  have hself := (List.takeWhile_prefix (l := u.reverse) isspace).eq_of_length hall
  intro c hc
  have hmem : c ∈ u.reverse.takeWhile isspace := by
    rw [hself]
    exact List.mem_reverse.mpr hc
  exact List.mem_takeWhile_imp hmem

/-- The end of a text without the white space there. -/
theorem rdropWhile_eq_take (u : List UInt8) : u.rdropWhile isspace =
    u.take (u.length - (u.reverse.takeWhile isspace).length) := by
  have h := List.rdropWhile_append_rtakeWhile (p := isspace) (l := u)
  have hlen : (u.rtakeWhile isspace).length = (u.reverse.takeWhile isspace).length := by
    rw [List.rtakeWhile, List.length_reverse]
  have hsum := congrArg List.length h
  rw [List.length_append, hlen] at hsum
  rw [show u.length - (u.reverse.takeWhile isspace).length = (u.rdropWhile isspace).length by omega]
  exact List.prefix_iff_eq_take.mp ⟨_, h⟩

/-- `trim` cuts the white space off both ends of a string, whatever is in front of the buffer. -/
theorem cstr_trim (before b : List UInt8) :
    cstr ((trim before b).2.2.drop (trim before b).1) = trimmed (cstr b) := by
  obtain ⟨s, hs⟩ : ∃ s, s = ltrim b := ⟨_, rfl⟩
  obtain ⟨u, hu⟩ : ∃ u, u = (cstr b).dropWhile isspace := ⟨_, rfl⟩
  have hsplit : (cstr b).takeWhile isspace ++ u = cstr b := by
    rw [hu]
    exact List.takeWhile_append_dropWhile
  have hslen : s = ((cstr b).takeWhile isspace).length := hs.trans (ltrim_eq b)
  have hlen : s + u.length = strlen b := by
    have := congrArg List.length hsplit
    rw [List.length_append, ← hslen] at this
    exact this
  have hdrop : (cstr b).drop s = u := by rw [hslen, drop_length_takeWhile, hu]
  have hback : s + strlen (b.drop s) = strlen b := by
    have : (cstr (b.drop s)).length = u.length := by rw [cstr_drop (by omega), hdrop]
    change s + (cstr (b.drop s)).length = _
    omega
  have hrev : (b.take (strlen b)).reverse ++ before =
      u.reverse ++ (((cstr b).takeWhile isspace).reverse ++ before) := by
    rw [take_strlen, ← List.append_assoc, ← List.reverse_append, hsplit]
  unfold trim rtrim trimmed
  simp only [← hs, ← hu, hback, hrev]
  by_cases hnil : u = []
  · -- nothing but white space: the string ends where the pointer is
    rw [hnil, List.rdropWhile_nil]
    apply cstr_of_zero
    have hend : s = strlen b := by simpa [hnil] using hlen
    rw [byteAt_drop, Nat.add_zero]
    split
    · rw [byteAt_setAt, hend]
      split
      · rfl
      · exact byteAt_strlen b
    · rw [hend]
      exact byteAt_strlen b
  · have hword : ¬ ∀ c ∈ u, isspace c := by
      rw [hu] at hnil ⊢
      exact not_forall_dropWhile hnil
    rw [takeWhile_reverse_append _ hword, rdropWhile_eq_take]
    have hn : (u.reverse.takeWhile isspace).length ≤ u.length :=
      ((List.takeWhile_prefix _).length_le).trans_eq List.length_reverse
    obtain ⟨n, hn'⟩ : ∃ n, n = (u.reverse.takeWhile isspace).length := ⟨_, rfl⟩
    rw [← hn'] at hn ⊢
    have hcut : cstr (setAt b (strlen b - n) 0) = (cstr b).take (strlen b - n) :=
      cstr_setAt_zero (Nat.sub_le _ _)
    have hcutlen : strlen (setAt b (strlen b - n) 0) = strlen b - n := by
      have := congrArg List.length hcut
      rw [List.length_take, show (cstr b).length = strlen b from rfl] at this
      exact this.trans (Nat.min_eq_left (Nat.sub_le _ _))
    rw [if_pos (by omega)]
    simp only
    rw [cstr_drop (by omega), hcut, List.drop_take, hdrop]
    congr 1
    omega

/-- White space is cut off the end of a text piece by piece. -/
theorem rdropWhile_append (x t : List UInt8) : (x ++ t).rdropWhile isspace =
    if t.rdropWhile isspace = [] then x.rdropWhile isspace else x ++ t.rdropWhile isspace := by
  unfold List.rdropWhile
  rw [List.reverse_append, List.dropWhile_append]
  cases t.reverse.dropWhile isspace with
  | nil => rfl
  | cons c s => simp

/-- White space behind a text does not change what is left of it, and anything else does. -/
theorem trimmed_append_iff (l t : List UInt8) :
    trimmed (l ++ t) = trimmed l ↔ ∀ c ∈ t, isspace c := by
  have hall : t.rdropWhile isspace = [] ↔ ∀ c ∈ t, isspace c := List.rdropWhile_eq_nil_iff
  have hle : (trimmed l).length ≤ (l.dropWhile isspace).length :=
    (List.rdropWhile_prefix isspace _).length_le
  unfold trimmed at hle ⊢
  rw [List.dropWhile_append, ← hall]
  cases hl : l.dropWhile isspace with
  | nil =>
      simp only [List.isEmpty_nil, if_true, List.rdropWhile_nil]
      rw [List.rdropWhile_eq_nil_iff, hall]
      constructor
      · intro h
        by_contra hno
        have hne : t.dropWhile isspace ≠ [] := fun hnil => hno (List.dropWhile_eq_nil_iff.mp hnil)
        exact not_forall_dropWhile hne h
      · exact fun h c hc => h c ((List.dropWhile_suffix isspace).subset hc)
  | cons c s =>
      simp only [List.isEmpty_cons, Bool.false_eq_true, if_false]
      rw [rdropWhile_append]
      constructor
      · intro h
        by_contra hno
        rw [if_neg hno] at h
        have hlen := congrArg List.length h
        rw [List.length_append] at hlen
        rw [hl] at hle
        have := List.length_pos_iff.mpr hno
        omega
      · exact fun h => if_pos h

/-! ### The buffer -/

theorem byteAt_putBytes (bs b : List UInt8) (i j : ℕ) : byteAt (putBytes b i bs) j =
    if i ≤ j ∧ j < i + bs.length then byteAt bs (j - i) else byteAt b j := by
  induction bs generalizing b i with
  | nil =>
      rw [putBytes, if_neg]
      rw [List.length_nil]
      omega
  | cons c bs ih =>
      rw [putBytes, ih, byteAt_setAt, List.length_cons]
      by_cases hj : j = i
      · rw [if_neg (by omega), if_pos hj, if_pos (by omega), hj, Nat.sub_self]
        rfl
      · by_cases hin : i + 1 ≤ j ∧ j < i + 1 + bs.length
        · rw [if_pos hin, if_pos (by omega), show j - i = j - (i + 1) + 1 by omega,
            byteAt_cons_succ]
        · rw [if_neg hin, if_neg hj, if_neg (by omega)]

/-- The bytes of the old buffer that follow a text of `n` bytes: none, unless the text reaches past
the first zero byte. -/
def stale (b : List UInt8) (n : ℕ) : List UInt8 := if strlen b < n then cstr (b.drop n) else []

/-- The string in the buffer when a text has been copied to it. -/
theorem cstr_putBytes (b : List UInt8) {bs : List UInt8} (hbs : ∀ c ∈ bs, c ≠ 0) :
    cstr (putBytes (clearchar b) 0 bs) = bs ++ stale b bs.length := by
  have hstale : ∀ c ∈ stale b bs.length, c ≠ 0 := by
    unfold stale
    split
    · exact cstr_ne_zero
    · exact fun c hc => absurd hc List.not_mem_nil
  refine cstr_eq_iff.mpr ⟨fun c hc => ?_, fun k hk => ?_⟩
  · rcases List.mem_append.mp hc with hc | hc
    · exact hbs c hc
    · exact hstale c hc
  rw [byteAt_putBytes, Nat.zero_add, Nat.sub_zero]
  rw [List.length_append] at hk
  by_cases hlt : k < bs.length
  · rw [if_pos ⟨Nat.zero_le k, hlt⟩, byteAt, byteAt, List.getD_eq_getElem?_getD,
      List.getD_eq_getElem?_getD, List.getElem?_append_left hlt]
  · obtain ⟨i, rfl⟩ := Nat.exists_eq_add_of_le (not_lt.mp hlt)
    have hright : byteAt (bs ++ stale b bs.length) (bs.length + i) = byteAt (stale b bs.length) i := by
      rw [byteAt, byteAt, List.getD_eq_getElem?_getD, List.getD_eq_getElem?_getD,
        List.getElem?_append_right (Nat.le_add_right _ _), Nat.add_sub_cancel_left]
    rw [if_neg (by omega), hright, byteAt_clearchar]
    unfold stale at hk ⊢
    by_cases hshort : strlen b < bs.length
    · rw [if_pos hshort] at hk ⊢
      rw [if_neg (by omega), byteAt_cstr, byteAt_drop]
      change i ≤ (cstr (b.drop bs.length)).length
      omega
    · rw [if_neg hshort] at hk ⊢
      rw [List.length_nil] at hk
      obtain rfl : i = 0 := by omega
      rw [byteAt_of_le (List.length_nil.trans_le (Nat.zero_le _)), Nat.add_zero]
      split
      · rfl
      case isFalse hle =>
        rw [show bs.length = strlen b by omega, byteAt_strlen]

/-- A file of fewer than 128 bytes is read whole. -/
theorem readFs_small {r : Initrd} {node : NodeRef} {f : List UInt8} (h : FileAt r node f)
    (hlen : f.length < 128) : readFs r node 0 128 = f := by
  have hsub : sub32 f.length 0 = f.length := sub32_of_le (Nat.zero_le _) (by omega)
  have hsum : w32 (0 + 128) = 128 := w32_of_lt (by decide)
  have hsmall : ¬ initrdBufferSize < f.length := by
    rw [initrdBufferSize]
    omega
  rw [readFs, if_pos h.read, initrdRead]
  simp only [h.length_eq, Nat.not_lt_zero, if_false, hsum, hlen, if_true, hsub, hsmall,
    Nat.add_zero, h.bytes_eq]

/-- The name that `kmain` looks up is the contents of `autostart.dat` without the white space at
both ends exactly if nothing but white space follows them in the buffer. -/
theorem autostart_iff {r : Initrd} {node : NodeRef} {f : List UInt8} (before b : List UInt8)
    (hfind : finddirFs r .root autostartFname = some node) (hfile : FileAt r node f)
    (hlen : f.length < 128) (hf : ∀ c ∈ f, c ≠ 0) :
    kmainShellFname r before b = some (trimmed f) ↔ ∀ c ∈ stale b f.length, isspace c := by
  have hread := readFs_small hfile hlen
  have hname : kmainShellFname r before b = some (trimmed (f ++ stale b f.length)) := by
    unfold kmainShellFname
    simp only [hfind, Option.map_some, hread]
    rw [← cstr_putBytes b hf]
    exact congrArg some (cstr_trim before _)
  rw [hname, Option.some.injEq, trimmed_append_iff]

/-! ### A ramdisk with the name `sh` -/

/-- A ramdisk whose only file is `autostart.dat`, with the contents `sh`. -/
def shDisk : Initrd where
  mem := Mem.load (fun _ => 0) 4168 [80, 16, 0, 0, 2, 0, 0, 0, 115, 104]
  fileHeaders := 4100
  rootNodes := [⟨autostartFname, 0, 0, 0, fsFile, 0, 2, 0, true, false, false⟩]
  nrootNodes := 1

theorem shDisk_file : FileAt shDisk (.file 0) [115, 104] :=
  ⟨rfl, by decide, by decide +kernel, by decide +kernel, by decide +kernel⟩

theorem shDisk_find : finddirFs shDisk .root autostartFname = some (.file 0) := by decide +kernel

/-- The theorem for this ramdisk and a buffer that held a longer text. -/
theorem autostart_iff_sh : kmainShellFname shDisk [] [120, 121, 122, 0, 119] =
    some (trimmed [115, 104]) ↔ ∀ c ∈ stale [120, 121, 122, 0, 119] 2, isspace c :=
  autostart_iff [] [120, 121, 122, 0, 119] shDisk_find shDisk_file (by decide) (by simp)

/-- In a buffer that starts with a zero byte, old bytes follow the name. -/
theorem autostart_stale : FileAt shDisk (.file 0) [115, 104] ∧
    kmainShellFname shDisk [] [0, 120, 121] = some [115, 104, 121] ∧
    trimmed [115, 104] = [115, 104] := by
  have hname : kmainShellFname shDisk [] [0, 120, 121] = some [115, 104, 121] := by
    unfold kmainShellFname
    simp only [shDisk_find, Option.map_some, readFs_small shDisk_file (by decide)]
    decide
  exact ⟨shDisk_file, hname, by decide⟩

end Owmice.Vfs
