import Owmice.Initrd
import Owmice.MemMove

/-! # Running programs (`exec_initrd`)

A program from the ramdisk is loaded to `EXEC_ADDR`, over the program that calls `exec_initrd`.
The first `shell_size` bytes there are saved in the buffer `shell_buf` before, and copied back
when the loaded program has returned.  There is one buffer, so a call that the loaded program
makes saves its own image over that of its caller.  And `fname` is a pointer: it is read again
after the program has been loaded, maybe over the name.

* `Program.Restores`: every call of a nest leaves the image as it was;
* `Program.restores_iff`: when that is so;
* `shell_lost`: a program that makes one call, in vain, comes back to its own image. -/

namespace Owmice.Vfs

/-- `EXEC_ADDR`. -/
def execAddr : ℕ := 0x100060

/-- `shell_buf`, `shell_size` and the pointer `shell_fname`. -/
structure Shell where
  shellBuf : ℕ
  shellSize : ℕ
  shellFname : ℕ

/-- What a program does to the execution area: calls of `exec_initrd`, each with the pointer to
the name and the program that it runs if the file can be loaded, and a return. -/
inductive Program where
  | ret (n : ℤ)
  | exec (fname : ℕ) (callee rest : Program)

/-- `memmove` in the memory of the file system. -/
def Initrd.memmove (s : Initrd) (dst src size : ℕ) : Initrd :=
  { s with mem := s.mem.memmove dst src size }

/-- The string at an address. -/
def Initrd.stringAt (s : Initrd) (a : ℕ) : List UInt8 :=
  cstring (fun x => s.mem (w32 x)) 4294967296 a

/-- `streq(fname, shell_fname)`. -/
def Initrd.isShell (s : Initrd) (v : Shell) (fname : ℕ) : Bool :=
  streq (s.stringAt fname) (s.stringAt v.shellFname)

/-- `exec_initrd` up to the call of the program: `.error` when it returns before. -/
def execLoad (v : Shell) (fname : ℕ) (s : Initrd) : Except Initrd Initrd :=
  let s := if s.isShell v fname then s else s.memmove v.shellBuf execAddr v.shellSize
  match finddirFs s .root (s.stringAt fname) with
  | none => .error s
  | some fsnode =>
      let buf := readFs s fsnode 0 initrdBufferSize
      let s := { s with mem := s.mem.load execAddr buf }
      if buf.length = 0 then .error s else .ok s

/-- `exec_initrd`; `main` is the program at `EXEC_ADDR`.  The names are compared again when it has
returned. -/
def execInitrd (v : Shell) (fname : ℕ) (main : Initrd → ℤ × Initrd) (s : Initrd) : ℤ × Initrd :=
  match execLoad v fname s with
  | .error s => (toInt32 0xDEADF113, s)
  | .ok s =>
      let (ret, s) := main s
      (ret, if s.isShell v fname then s else s.memmove execAddr v.shellBuf v.shellSize)

/-- The run of a program. -/
def Program.run (v : Shell) : Program → Initrd → ℤ × Initrd
  | .ret n, s => (n, s)
  | .exec fname callee rest, s => rest.run v (execInitrd v fname (callee.run v) s).2

/-! ### What a call is to do -/

/-- The first `shell_size` bytes at `EXEC_ADDR`. -/
def image (v : Shell) (s : Initrd) : List UInt8 := s.mem.bytes execAddr v.shellSize

/-- The buffer. -/
def saved (v : Shell) (s : Initrd) : List UInt8 := s.mem.bytes v.shellBuf v.shellSize

namespace Program

/-- No call, at any depth, is for the shell itself when it is made. -/
def Avoids (v : Shell) : Program → Initrd → Prop
  | .ret _, _ => True
  | .exec fname callee rest, s =>
      s.isShell v fname = false ∧ (∀ s₁, execLoad v fname s = .ok s₁ → callee.Avoids v s₁) ∧
        rest.Avoids v (execInitrd v fname (callee.run v) s).2

/-- Every call, at any depth, leaves the image as it was when it was made. -/
def Restores (v : Shell) : Program → Initrd → Prop
  | .ret _, _ => True
  | .exec fname callee rest, s =>
      image v (execInitrd v fname (callee.run v) s).2 = image v s ∧
        (∀ s₁, execLoad v fname s = .ok s₁ → callee.Restores v s₁) ∧
        rest.Restores v (execInitrd v fname (callee.run v) s).2

/-- The program makes no call. -/
def IsRet : Program → Prop
  | .ret _ => True
  | .exec _ _ _ => False

/-- The condition on a call: if a program is loaded, it is the image that is there already, or it
makes no call of its own and has not been loaded over the names in such a way that they are now
equal. -/
def CallGood (v : Shell) (fname : ℕ) (callee : Program) (s : Initrd) : Prop :=
  ∀ s₁, execLoad v fname s = .ok s₁ →
    image v s₁ = image v s ∨ callee.IsRet ∧ s₁.isShell v fname = false

/-- All calls meet the condition. -/
def AllGood (v : Shell) : Program → Initrd → Prop
  | .ret _, _ => True
  | .exec fname callee rest, s =>
      CallGood v fname callee s ∧
        (∀ s₁, execLoad v fname s = .ok s₁ → callee.AllGood v s₁) ∧
        rest.AllGood v (execInitrd v fname (callee.run v) s).2

instance (r : Except Initrd Initrd) (P : Initrd → Prop) [∀ s, Decidable (P s)] :
    Decidable (∀ s₁, r = .ok s₁ → P s₁) :=
  match r with
  | .error _ => .isTrue (by simp)
  | .ok s => decidable_of_iff (P s) (by simp)

instance decidableAvoids (v : Shell) : ∀ (p : Program) (s : Initrd), Decidable (p.Avoids v s)
  | .ret _, _ => .isTrue trivial
  | .exec fname callee rest, s =>
      have : ∀ s₁, Decidable (callee.Avoids v s₁) := decidableAvoids v callee
      have : Decidable (rest.Avoids v (execInitrd v fname (callee.run v) s).2) :=
        decidableAvoids v rest _
      inferInstanceAs (Decidable (_ ∧ (∀ s₁, execLoad v fname s = .ok s₁ → callee.Avoids v s₁) ∧ _))

end Program

/-- The buffer is large enough for the shell, and lies outside the space for programs. -/
structure Shell.Apart (v : Shell) : Prop where
  size_le : v.shellSize ≤ initrdBufferSize
  fits : v.shellBuf + v.shellSize ≤ 4294967296
  apart : v.shellBuf + v.shellSize ≤ execAddr ∨ execAddr + initrdBufferSize ≤ v.shellBuf

/-! ### Single calls -/

theorem length_readFs_le (r : Initrd) (node : NodeRef) (offset size : ℕ) :
    (readFs r node offset size).length ≤ initrdBufferSize := by
  have hbuf : ∀ a n, (if initrdBufferSize < n then [] else r.mem.bytes a n).length ≤
      initrdBufferSize := by
    intro a n
    split
    · simp
    case isFalse h => exact (Mem.length_bytes _ _ _).trans_le (not_lt.mp h)
  unfold readFs initrdRead
  split
  · simp only
    split
    · simp
    · exact hbuf _ _
  · simp

section call

variable {v : Shell} {fname : ℕ} {s s₁ : Initrd}

theorem Shell.Apart.ends (hv : v.Apart) : execAddr + v.shellSize ≤ 4294967296 ∧
    execAddr + initrdBufferSize ≤ 4294967296 := by
  have := hv.size_le
  simp only [execAddr, initrdBufferSize] at *
  omega

/-- The image is saved, and stays. -/
theorem save_spec (hv : v.Apart) (s : Initrd) :
    image v (s.memmove v.shellBuf execAddr v.shellSize) = image v s ∧
      saved v (s.memmove v.shellBuf execAddr v.shellSize) = image v s := by
  obtain ⟨h1, h2⟩ := hv.ends
  have hsize := hv.size_le
  have hapart := hv.apart
  exact ⟨Mem.bytes_memmove_of_disjoint hv.fits h1 h1 (by omega), Mem.bytes_memmove hv.fits h1⟩

/-- The buffer is copied back, and stays. -/
theorem restore_spec (hv : v.Apart) (s : Initrd) :
    image v (s.memmove execAddr v.shellBuf v.shellSize) = saved v s ∧
      saved v (s.memmove execAddr v.shellBuf v.shellSize) = saved v s := by
  obtain ⟨h1, h2⟩ := hv.ends
  have hsize := hv.size_le
  have hapart := hv.apart
  exact ⟨Mem.bytes_memmove h1 hv.fits, Mem.bytes_memmove_of_disjoint h1 hv.fits hv.fits (by omega)⟩

/-- Loading a program leaves the buffer alone. -/
theorem saved_load (hv : v.Apart) {buf : List UInt8} (hbuf : buf.length ≤ initrdBufferSize) :
    saved v { s with mem := s.mem.load execAddr buf } = saved v s := by
  obtain ⟨h1, h2⟩ := hv.ends
  have hapart := hv.apart
  exact Mem.bytes_load_of_disjoint (by omega) hv.fits (by omega)

/-- A call that returns at once has saved the image and left it alone. -/
theorem execLoad_error (hv : v.Apart) (hne : s.isShell v fname = false)
    (h : execLoad v fname s = .error s₁) : image v s₁ = image v s ∧ saved v s₁ = image v s := by
  obtain ⟨h1, h2⟩ := save_spec hv s
  simp only [execLoad, hne, Bool.false_eq_true, if_false] at h
  split at h
  · cases h
    exact ⟨h1, h2⟩
  · split at h
    case isFalse => cases h
    case isTrue hlen =>
      cases h
      rw [List.length_eq_zero_iff] at hlen
      rw [hlen, saved_load hv (Nat.zero_le _)]
      refine ⟨?_, h2⟩
      rw [← h1]
      exact Mem.bytes_load_of_disjoint (by simp [execAddr]) hv.ends.1 (.inr (by simp))

/-- When the program is entered, the buffer has the image of the caller. -/
theorem execLoad_ok (hv : v.Apart) (hne : s.isShell v fname = false)
    (h : execLoad v fname s = .ok s₁) : saved v s₁ = image v s := by
  simp only [execLoad, hne, Bool.false_eq_true, if_false] at h
  split at h
  · cases h
  · split at h
    · cases h
    · cases h
      rw [saved_load hv (length_readFs_le _ _ _ _)]
      exact (save_spec hv s).2

variable {main : Initrd → ℤ × Initrd}

theorem execInitrd_error (h : execLoad v fname s = .error s₁) :
    (execInitrd v fname main s).2 = s₁ := by
  simp only [execInitrd, h]

theorem execInitrd_ok (h : execLoad v fname s = .ok s₁) :
    (execInitrd v fname main s).2 =
      if (main s₁).2.isShell v fname then (main s₁).2
      else (main s₁).2.memmove execAddr v.shellBuf v.shellSize := by
  simp only [execInitrd, h]

end call

/-! ### Nests of calls -/

namespace Program

variable {v : Shell}

/-- A program all of whose calls restore the image leaves it as it was. -/
theorem Restores.image_run {p : Program} {s : Initrd} (h : p.Restores v s) :
    image v (p.run v s).2 = image v s := by
  induction p generalizing s with
  | ret n => rfl
  | exec fname callee rest _ ih =>
      obtain ⟨hcall, -, hrest⟩ := h
      rw [run, ih hrest, hcall]

/-- If it has made a call, the buffer has that image, too. -/
theorem Restores.saved_run (hv : v.Apart) {p : Program} {s : Initrd} (h : p.Restores v s)
    (hp : p.Avoids v s) (hcalls : ¬ p.IsRet) : saved v (p.run v s).2 = image v s := by
  induction p generalizing s with
  | ret n => exact absurd trivial hcalls
  | exec fname callee rest ihc ihr =>
      obtain ⟨hne, hcallee, hrest⟩ := hp
      obtain ⟨hcall, hinner, houter⟩ := h
      have hsaved : saved v (execInitrd v fname (callee.run v) s).2 = image v s := by
        cases hload : execLoad v fname s with
        | error s₁ =>
            rw [execInitrd_error hload]
            exact (execLoad_error hv hne hload).2
        | ok s₁ =>
            rw [execInitrd_ok hload] at hcall ⊢
            split at hcall
            case isTrue hshell =>
              -- the buffer is not copied back, so it has what `callee` has left there
              rw [if_pos hshell]
              cases hc : callee with
              | ret n => exact execLoad_ok hv hne hload
              | exec g c r =>
                  have hno : ¬ callee.IsRet := by simp [hc, IsRet]
                  rw [← hc, ihc (hinner s₁ hload) (hcallee s₁ hload) hno, ← hcall,
                    (hinner s₁ hload).image_run]
            case isFalse hshell =>
              obtain ⟨himage, hbuf⟩ := restore_spec hv (callee.run v s₁).2
              rw [if_neg hshell, hbuf, ← hcall, himage]
      rw [run]
      cases hr : rest with
      | ret n => exact hsaved
      | exec g c r =>
          have hno : ¬ rest.IsRet := by simp [hr, IsRet]
          rw [← hr, ihr houter hrest hno, hcall]

/-- A call of a program that restores the image for itself. -/
theorem call_restores_iff (hv : v.Apart) {fname : ℕ} {callee : Program} {s : Initrd}
    (hne : s.isShell v fname = false)
    (hcallee : ∀ s₁, execLoad v fname s = .ok s₁ → callee.Avoids v s₁)
    (hinner : ∀ s₁, execLoad v fname s = .ok s₁ → callee.Restores v s₁) :
    image v (execInitrd v fname (callee.run v) s).2 = image v s ↔ CallGood v fname callee s := by
  cases h : execLoad v fname s with
  | error s₁ =>
      rw [execInitrd_error h, (execLoad_error hv hne h).1]
      simp [CallGood, h]
  | ok s₁ =>
      have hback := (restore_spec hv (callee.run v s₁).2).1
      rw [execInitrd_ok h]
      simp only [CallGood, h, Except.ok.injEq, forall_eq']
      cases hc : callee with
      | ret n =>
          -- the program is back as soon as it is entered
          have hsaved := execLoad_ok hv hne h
          simp only [IsRet, true_and, run]
          by_cases hshell : s₁.isShell v fname
          · simp [hshell]
          · simp [hshell, (restore_spec hv s₁).1, hsaved]
      | exec g c r =>
          have hcall : ¬ callee.IsRet := by simp [hc, IsRet]
          have himage := (hinner s₁ h).image_run
          have hsaved := (hinner s₁ h).saved_run hv (hcallee s₁ h) hcall
          rw [← hc]
          simp only [hcall, false_and, or_false]
          split
          · rw [himage]
          · rw [hback, hsaved]

/-- Every call at any depth restores the image of its caller exactly if all calls meet the
condition. -/
theorem restores_iff (hv : v.Apart) {p : Program} {s : Initrd} (hp : p.Avoids v s) :
    p.Restores v s ↔ p.AllGood v s := by
  induction p generalizing s with
  | ret n => exact Iff.rfl
  | exec fname callee rest ihc ihr =>
      obtain ⟨hne, hcallee, hrest⟩ := hp
      have hinner : (∀ s₁, execLoad v fname s = .ok s₁ → callee.Restores v s₁) ↔
          ∀ s₁, execLoad v fname s = .ok s₁ → callee.AllGood v s₁ :=
        forall₂_congr fun s₁ h => ihc (hcallee s₁ h)
      rw [Restores, AllGood, ihr hrest, ← hinner]
      constructor
      · rintro ⟨h1, h2, h3⟩
        exact ⟨(call_restores_iff hv hne hcallee h2).mp h1, h2, h3⟩
      · rintro ⟨h1, h2, h3⟩
        exact ⟨(call_restores_iff hv hne hcallee h2).mpr h1, h2, h3⟩

end Program

/-! ### A shell that is lost -/

/-- A shell of four bytes, whose name is at `0x500030`. -/
def tinyShell : Shell := ⟨0x300000, 4, 0x500030⟩

theorem tinyShell_apart : tinyShell.Apart := ⟨by decide, by decide, by decide⟩

/-- A ramdisk with the file `a` of four bytes; the memory at `EXEC_ADDR` holds zeros, and the
strings `a`, `b` and `s` are at `0x500010`, `0x500020` and `0x500030`. -/
def tinyDisk : Initrd where
  mem := [(0x400000 + 68, 0x500000), (0x400000 + 72, 4), (0x500000, 0x04030201), (0x500010, 97),
    (0x500020, 98), (0x500030, 115)].foldl (fun m w => Mem.write32 m w.1 w.2) fun _ => 0
  fileHeaders := 0x400000
  rootNodes := [⟨[97], 0, 0, 0, fsFile, 0, 4, 0, true, false, false⟩]
  nrootNodes := 1

/-- The shell runs `a`, which looks for `b`. -/
def nested : Program := .exec 0x500010 (.exec 0x500020 (.ret 0) (.ret 0)) (.ret 0)

/-- The shell runs `a`, looks for `b` itself, and runs `nested`. -/
def session : Program := .exec 0x500010 (.ret 0) (.exec 0x500020 (.ret 0) nested)

/-- The theorem for the session. -/
theorem restores_iff_session :
    session.Restores tinyShell tinyDisk ↔ session.AllGood tinyShell tinyDisk :=
  Program.restores_iff tinyShell_apart (by decide +kernel)

/-- When `a` has returned, its own image is at `EXEC_ADDR`. -/
theorem shell_lost : tinyShell.Apart ∧ nested.Avoids tinyShell tinyDisk ∧
    image tinyShell tinyDisk = [0, 0, 0, 0] ∧
    image tinyShell (nested.run tinyShell tinyDisk).2 = [1, 2, 3, 4] ∧
    ¬ nested.Restores tinyShell tinyDisk := by
  have h0 : image tinyShell tinyDisk = [0, 0, 0, 0] := by decide +kernel
  have h1 : image tinyShell (nested.run tinyShell tinyDisk).2 = [1, 2, 3, 4] := by decide +kernel
  refine ⟨tinyShell_apart, by decide +kernel, h0, h1, fun h => ?_⟩
  have := h.image_run
  rw [h0, h1] at this
  exact absurd this (by decide)

end Owmice.Vfs
