import Owmice.Autostart
import Owmice.Logged
import Owmice.Memory

/-! # White space in memory (`trim` of `standard/strings.h`)

`rtrim` walks down from the end of a string while it finds white space, and has no lower bound: on
a string with nothing else in it, it goes on in front of the string.  Here `trim` works on the
whole memory, and every byte that is read or written is logged.

* `ltrim_run`, `strlen_run`, `rtrimLoop_run`: the three loops;
* `trim_iff`: the strings on which `trim` does what it is for. -/

namespace Owmice.Mem

open Logged
open Vfs (isspace trimmed)

/-- `ltrim`. -/
def ltrim (m : Mem) : ℕ → ℕ → OptionT (Logged ℕ) ℕ
  | 0, _ => failure
  | fuel + 1, s => do
      OptionT.lift (access s)
      if isspace (m s) then ltrim m fuel (w32 (s + 1)) else pure s

/-- `strlen`, from byte `len` on. -/
def strlen (m : Mem) (str : ℕ) : ℕ → ℕ → OptionT (Logged ℕ) ℕ
  | 0, _ => failure
  | fuel + 1, len => do
      OptionT.lift (access (w32 (str + len)))
      if m (w32 (str + len)) = 0 then pure len else strlen m str fuel (w32 (len + 1))

/-- The loop of `rtrim`. -/
def rtrimLoop (m : Mem) : ℕ → ℕ → OptionT (Logged ℕ) ℕ
  | 0, _ => failure
  | fuel + 1, back => do
      let back := sub32 back 1
      OptionT.lift (access back)
      if isspace (m back) then rtrimLoop m fuel back else pure back

/-- `rtrim`, which returns its argument. -/
def rtrim (m : Mem) (fuel s : ℕ) : OptionT (Logged ℕ) Mem := do
  let len ← strlen m s fuel 0
  let back ← rtrimLoop m fuel (w32 (s + len))
  OptionT.lift (access (w32 (back + 1)))
  pure (Function.update m (w32 (back + 1)) 0)

/-- `trim`: the pointer, and the memory. -/
def trim (m : Mem) (fuel s : ℕ) : OptionT (Logged ℕ) (ℕ × Mem) := do
  let s ← ltrim m fuel s
  let m ← rtrim m fuel s
  pure (s, m)

/-! ### What `trim` is for -/

/-- A string of `n` characters at `s`. -/
structure StringAt (m : Mem) (s n : ℕ) : Prop where
  pos : 0 < s
  fits : s + n < 4294967296
  char : ∀ i < n, m (s + i) ≠ 0
  stop : m (s + n) = 0

/-- `trim` ends, and returns a pointer into the string of `n` characters at `s` to that string
without the white space at its ends; it reads and writes nothing but the string and its zero
byte. -/
def Trims (m : Mem) (fuel s n : ℕ) : Prop :=
  ∃ p m', (trim m fuel s).run.val = some (p, m') ∧ s ≤ p ∧ p ≤ s + n ∧
    (∃ k, StringAt m' p k ∧ m'.bytes p k = trimmed (m.bytes s n)) ∧
    (∀ a ∈ (trim m fuel s).run.log, s ≤ a ∧ a ≤ s + n) ∧
    Only (fun a => s ≤ a ∧ a ≤ s + n) m m'

/-! ### The loops -/

section Loops

variable {m : Mem} {s n : ℕ}

theorem lift_access_run (a : ℕ) {α : Type} (f : Unit → OptionT (Logged ℕ) α) :
    ((OptionT.lift (access a) : OptionT (Logged ℕ) Unit) >>= f).run =
      ⟨(f ()).run.val, a :: (f ()).run.log⟩ :=
  run_bind_some rfl f

/-- `ltrim` ends behind the white space. -/
theorem ltrim_run : ∀ (a fuel s : ℕ), a < fuel → s + a < 4294967296 →
    (∀ i < a, isspace (m (s + i))) → isspace (m (s + a)) = false →
      ∃ l, (ltrim m fuel s).run = ⟨some (s + a), l⟩ ∧ ∀ x ∈ l, s ≤ x ∧ x ≤ s + a
  | _, 0, _, hfuel, _, _, _ => absurd hfuel (Nat.not_lt_zero _)
  | 0, fuel + 1, s, _, _, _, hend => by
      rw [Nat.add_zero] at hend ⊢
      refine ⟨[s], ?_, by simp⟩
      rw [ltrim, lift_access_run, hend]
      rfl
  | a + 1, fuel + 1, s, hfuel, hfits, hsp, hend => by
      have hhead : isspace (m s) = true := hsp 0 (Nat.zero_lt_succ a)
      obtain ⟨l, hrun, hl⟩ := ltrim_run a fuel (s + 1) (by omega) (by omega)
        (fun i hi => by rw [Nat.add_assoc, Nat.add_comm 1]; exact hsp (i + 1) (by omega))
        (by rw [Nat.add_assoc, Nat.add_comm 1]; exact hend)
      refine ⟨s :: l, ?_, ?_⟩
      · rw [ltrim, lift_access_run, hhead, if_pos rfl, w32_of_lt (by omega), hrun,
          Nat.add_assoc, Nat.add_comm 1]
      · intro x hx
        rcases List.mem_cons.mp hx with rfl | hx
        · omega
        · have := hl x hx
          omega

/-- `strlen` ends at the zero byte. -/
theorem strlen_run : ∀ (k fuel len : ℕ), k < fuel → s + len + k < 4294967296 →
    (∀ i < k, m (s + len + i) ≠ 0) → m (s + len + k) = 0 →
      ∃ l, (strlen m s fuel len).run = ⟨some (len + k), l⟩ ∧ ∀ x ∈ l, s ≤ x ∧ x ≤ s + len + k
  | _, 0, _, hfuel, _, _, _ => absurd hfuel (Nat.not_lt_zero _)
  | 0, fuel + 1, len, _, hfits, _, hend => by
      rw [Nat.add_zero] at hend hfits ⊢
      refine ⟨[s + len], ?_, by simp⟩
      rw [strlen, lift_access_run, w32_of_lt hfits, if_pos hend]
      rfl
  | k + 1, fuel + 1, len, hfuel, hfits, hchar, hend => by
      have hhead : m (s + len) ≠ 0 := hchar 0 (Nat.zero_lt_succ k)
      obtain ⟨l, hrun, hl⟩ := strlen_run k fuel (len + 1) (by omega) (by omega)
        (fun i hi => by
          rw [show s + (len + 1) + i = s + len + (i + 1) by omega]
          exact hchar (i + 1) (by omega))
        (by rw [show s + (len + 1) + k = s + len + (k + 1) by omega]; exact hend)
      refine ⟨(s + len) :: l, ?_, ?_⟩
      · rw [strlen, lift_access_run, w32_of_lt (by omega), if_neg hhead, w32_of_lt (by omega), hrun,
          Nat.add_assoc, Nat.add_comm 1]
      · intro x hx
        rcases List.mem_cons.mp hx with rfl | hx
        · omega
        · have := hl x hx
          omega

/-- The loop of `rtrim` ends at the last character that is not white space. -/
theorem rtrimLoop_run : ∀ (b fuel back : ℕ), b < fuel → b < back → back < 4294967296 →
    (∀ i < b, isspace (m (back - 1 - i))) → isspace (m (back - 1 - b)) = false →
      ∃ l, (rtrimLoop m fuel back).run = ⟨some (back - 1 - b), l⟩ ∧
        ∀ x ∈ l, back - 1 - b ≤ x ∧ x < back
  | _, 0, _, hfuel, _, _, _, _ => absurd hfuel (Nat.not_lt_zero _)
  | 0, fuel + 1, back, _, hpos, hlt, _, hend => by
      rw [Nat.sub_zero] at hend ⊢
      refine ⟨[back - 1], ?_, ?_⟩
      · rw [rtrimLoop]
        rw [sub32_of_le hpos hlt, lift_access_run, hend]
        rfl
      · intro x hx
        rw [List.mem_singleton] at hx
        omega
  | b + 1, fuel + 1, back, hfuel, hpos, hlt, hsp, hend => by
      have hhead : isspace (m (back - 1)) = true := hsp 0 (Nat.zero_lt_succ b)
      obtain ⟨l, hrun, hl⟩ := rtrimLoop_run b fuel (back - 1) (by omega)
        (by omega) (by omega)
        (fun i hi => by
          rw [show back - 1 - 1 - i = back - 1 - (i + 1) by omega]
          exact hsp (i + 1) (by omega))
        (by rw [show back - 1 - 1 - b = back - 1 - (b + 1) by omega]; exact hend)
      refine ⟨(back - 1) :: l, ?_, ?_⟩
      · rw [rtrimLoop]
        rw [sub32_of_le (by omega) hlt, lift_access_run, hhead, if_pos rfl, hrun,
          show back - 1 - 1 - b = back - 1 - (b + 1) by omega]
      · intro x hx
        rcases List.mem_cons.mp hx with rfl | hx
        · omega
        · have := hl x hx
          omega

/-- Where it finds nothing but white space, it goes on. -/
theorem rtrimLoop_reads : ∀ (b fuel back : ℕ), b < fuel → b < back → back < 4294967296 →
    (∀ i < b, isspace (m (back - 1 - i))) → back - 1 - b ∈ (rtrimLoop m fuel back).run.log
  | _, 0, _, hfuel, _, _, _ => absurd hfuel (Nat.not_lt_zero _)
  | 0, fuel + 1, back, _, hpos, hlt, _ => by
      rw [rtrimLoop]
      rw [sub32_of_le hpos hlt, lift_access_run]
      exact List.mem_cons_self
  | b + 1, fuel + 1, back, hfuel, hpos, hlt, hsp => by
      have hhead : isspace (m (back - 1)) = true := hsp 0 (Nat.zero_lt_succ b)
      have ih := rtrimLoop_reads b fuel (back - 1) (by omega) (by omega)
        (by omega) fun i hi => by
          rw [show back - 1 - 1 - i = back - 1 - (i + 1) by omega]
          exact hsp (i + 1) (by omega)
      rw [rtrimLoop]
      rw [sub32_of_le (by omega) hlt, lift_access_run, hhead, if_pos rfl]
      rw [show back - 1 - 1 - b = back - 1 - (b + 1) by omega] at ih
      exact List.mem_cons_of_mem _ ih

end Loops

/-! ### The string that is left -/

section Trimmed

variable {m : Mem} {s n : ℕ}

theorem bytes_succ (m : Mem) (s n : ℕ) : m.bytes s (n + 1) = m (w32 s) :: m.bytes (s + 1) n := by
  simp only [bytes, List.range_succ_eq_map, List.map_cons, List.map_map, Nat.add_zero]
  congr 1
  apply List.map_congr_left
  intro i _
  rw [Function.comp_apply, Nat.succ_eq_add_one, Nat.add_assoc, Nat.add_comm 1]

theorem bytes_concat (m : Mem) (s n : ℕ) :
    m.bytes s (n + 1) = m.bytes s n ++ [m (w32 (s + n))] := by
  simp only [bytes, List.range_succ, List.map_append, List.map_cons, List.map_nil]

/-- White space in front of a string. -/
theorem dropWhile_bytes : ∀ {a s k : ℕ}, s + a + k < 4294967296 →
    (∀ i < a, isspace (m (s + i))) → 0 < k → isspace (m (s + a)) = false →
      (m.bytes s (a + k)).dropWhile isspace = m.bytes (s + a) k
  | 0, s, k + 1, hfits, _, _, hend => by
      simp only [Nat.add_zero, Nat.zero_add] at hend ⊢
      have hneg : ¬ isspace (m s) = true := by
        rw [hend]
        exact Bool.false_ne_true
      rw [bytes_succ, w32_of_lt (by omega), List.dropWhile_cons_of_neg hneg]
  | a + 1, s, k, hfits, hsp, hk, hend => by
      have hhead : isspace (m s) = true := hsp 0 (Nat.zero_lt_succ a)
      rw [Nat.add_right_comm, bytes_succ, w32_of_lt (by omega), List.dropWhile_cons_of_pos hhead,
        dropWhile_bytes (by omega) (fun i hi => by
          rw [Nat.add_assoc, Nat.add_comm 1]
          exact hsp (i + 1) (by omega)) hk (by rw [Nat.add_assoc, Nat.add_comm 1]; exact hend),
        Nat.add_assoc, Nat.add_comm 1]

/-- White space behind a string. -/
theorem rdropWhile_bytes : ∀ {b : ℕ} {k : ℕ}, s + k + b < 4294967296 →
    (∀ i < b, isspace (m (s + k + i))) → 0 < k → isspace (m (s + k - 1)) = false →
      (m.bytes s (k + b)).rdropWhile isspace = m.bytes s k
  | 0, k + 1, hfits, _, _, hend => by
      rw [Nat.add_zero, bytes_concat, w32_of_lt (by omega), List.rdropWhile_concat_neg]
      rw [show s + k = s + (k + 1) - 1 by omega, hend]
      exact Bool.false_ne_true
  | b + 1, k, hfits, hsp, hk, hend => by
      rw [← Nat.add_assoc, bytes_concat, w32_of_lt (by omega), List.rdropWhile_concat_pos,
        rdropWhile_bytes (by omega) (fun i hi => hsp i (by omega)) hk hend]
      rw [← Nat.add_assoc]
      exact hsp b (Nat.lt_succ_self b)

end Trimmed

/-! ### `trim` -/

section Trim

variable {m : Mem} {fuel s n : ℕ}

/-- `rtrim` on a string with `b` bytes of white space at its end. -/
theorem rtrim_run {b : ℕ} (h : StringAt m s n) (hfuel : n < fuel) (hb : b < n)
    (hback : ∀ i < b, isspace (m (s + n - 1 - i))) (hlast : isspace (m (s + n - 1 - b)) = false) :
    ∃ l, (rtrim m fuel s).run = ⟨some (Function.update m (s + n - b) 0), l⟩ ∧
      ∀ x ∈ l, s ≤ x ∧ x ≤ s + n := by
  have hfits := h.fits
  obtain ⟨l₁, hstrlen, hl₁⟩ := strlen_run (m := m) (s := s) n fuel 0 hfuel hfits
    h.char h.stop
  obtain ⟨l₂, hloop, hl₂⟩ := rtrimLoop_run (m := m) b fuel (s + n) (by omega)
    (by omega) hfits hback hlast
  refine ⟨l₁ ++ (l₂ ++ [s + n - b]), ?_, ?_⟩
  · rw [rtrim, run_bind_some hstrlen, Nat.zero_add, w32_of_lt hfits, run_bind_some hloop,
      show s + n - 1 - b + 1 = s + n - b by omega, w32_of_lt (by omega), lift_access_run]
    rfl
  · intro x hx
    simp only [List.mem_append, List.mem_singleton] at hx
    rcases hx with hx | hx | rfl
    · have := hl₁ x hx
      omega
    · have := hl₂ x hx
      omega
    · omega

/-- What is left of a string behind its first bytes. -/
theorem StringAt.drop (h : StringAt m s n) {a : ℕ} (ha : a ≤ n) : StringAt m (s + a) (n - a) where
  pos := by
    have := h.pos
    omega
  fits := by
    have := h.fits
    omega
  char i hi := by
    rw [Nat.add_assoc]
    exact h.char (a + i) (by omega)
  stop := by
    rw [show s + a + (n - a) = s + n by omega]
    exact h.stop

/-- What is left of a string in front of a zero byte that is written into it. -/
theorem StringAt.take (h : StringAt m s n) {k : ℕ} (hk : k ≤ n) :
    StringAt (Function.update m (s + k) 0) s k where
  pos := h.pos
  fits := by
    have := h.fits
    omega
  char i hi := by
    rw [Function.update_of_ne (by omega)]
    exact h.char i (by omega)
  stop := Function.update_self _ _ _

/-- The first and the last byte of a string that are not white space, if there are any. -/
theorem exists_ends {f : ℕ → UInt8} {j : ℕ} (hj : isspace (f j) = false) :
    ∃ a ≤ j, (∀ i < a, isspace (f i)) ∧ isspace (f a) = false := by
  have hex : ∃ a, isspace (f a) = false := ⟨j, hj⟩
  refine ⟨Nat.find hex, Nat.find_le hj, fun i hi => ?_, Nat.find_spec hex⟩
  exact eq_true_of_ne_false (Nat.find_min hex hi)

/-- A string with a character in it that is not white space. -/
theorem trims_of_word (h : StringAt m s n) (hfuel : n < fuel) {j : ℕ} (hj : j < n)
    (hword : isspace (m (s + j)) = false) : Trims m fuel s n := by
  have hfits := h.fits
  obtain ⟨a, ha, hfront, hfirst⟩ := exists_ends (f := fun i => m (s + i)) hword
  obtain ⟨b, hb, hback, hlast⟩ := exists_ends (f := fun i => m (s + n - 1 - i)) (j := n - 1 - j)
    (by rw [show s + n - 1 - (n - 1 - j) = s + j by omega]; exact hword)
  obtain ⟨k, hk⟩ : ∃ k, n = a + k + b := ⟨n - a - b, by omega⟩
  have hpos : 0 < k := by omega
  obtain ⟨l₁, hltrim, hl₁⟩ := ltrim_run (m := m) a fuel s (by omega) (by omega)
    hfront hfirst
  have hrest : StringAt m (s + a) (k + b) := by
    rw [show k + b = n - a by omega]
    exact h.drop (by omega)
  obtain ⟨l₂, hrtrim, hl₂⟩ := rtrim_run (b := b) hrest (show k + b < fuel by omega) (by omega)
    (fun i hi => by
      rw [show s + a + (k + b) - 1 - i = s + n - 1 - i by omega]
      exact hback i hi)
    (by rw [show s + a + (k + b) - 1 - b = s + n - 1 - b by omega]; exact hlast)
  have hrun : (trim m fuel s).run =
      ⟨some (s + a, Function.update m (s + a + k) 0), l₁ ++ (l₂ ++ [])⟩ := by
    rw [trim, run_bind_some hltrim, run_bind_some hrtrim,
      show s + a + (k + b) - b = s + a + k by omega]
    rfl
  refine ⟨s + a, _, congrArg Logged.val hrun, by omega, by omega,
    ⟨k, hrest.take (Nat.le_add_right k b), ?_⟩, ?_, ?_⟩
  · -- the bytes between the white space are left as they are
    have hbytes : Mem.bytes (Function.update m (s + a + k) 0) (s + a) k = m.bytes (s + a) k := by
      apply bytes_congr
      intro i hi
      rw [w32_of_lt (by omega), Function.update_of_ne (by omega)]
    rw [hbytes, trimmed, hk, Nat.add_assoc, dropWhile_bytes (by omega) hfront (by omega) hfirst,
      rdropWhile_bytes (by omega) _ hpos]
    · rw [show s + a + k - 1 = s + n - 1 - b by omega]
      exact hlast
    · intro i hi
      rw [show s + a + k + i = s + n - 1 - (b - 1 - i) by omega]
      exact hback _ (by omega)
  · rw [hrun]
    intro x hx
    simp only [List.append_nil, List.mem_append] at hx
    rcases hx with hx | hx
    · have := hl₁ x hx
      omega
    · have := hl₂ x hx
      omega
  · intro x hx
    exact Function.update_of_ne (by omega) _ _

/-- On a string of white space, `trim` reads the byte in front of it. -/
theorem reads_of_blank (h : StringAt m s n) (hfuel : n < fuel)
    (hblank : ∀ j < n, isspace (m (s + j))) : s - 1 ∈ (trim m fuel s).run.log := by
  have hfits := h.fits
  have hpos := h.pos
  have hstop : isspace (m (s + n)) = false := by
    rw [h.stop]
    decide
  obtain ⟨l₁, hltrim, -⟩ := ltrim_run n fuel s hfuel hfits hblank hstop
  obtain ⟨l₂, hstrlen, -⟩ := strlen_run (m := m) (s := s + n) 0 fuel 0
    (by omega) hfits (fun _ hi => absurd hi (Nat.not_lt_zero _)) h.stop
  have hread := rtrimLoop_reads (m := m) n fuel (s + n) hfuel (by omega) hfits fun i hi => by
    rw [show s + n - 1 - i = s + (n - 1 - i) by omega]
    exact hblank _ (by omega)
  rw [show s + n - 1 - n = s - 1 by omega] at hread
  rw [trim, run_bind_some hltrim]
  apply List.mem_append_right
  apply mem_log_run_bind
  rw [rtrim, run_bind_some hstrlen]
  apply List.mem_append_right
  apply mem_log_run_bind
  rw [Nat.add_zero, w32_of_lt hfits]
  exact hread

/-- `trim` does what it is for exactly on the strings with a character that is not white space. -/
theorem trim_iff (h : StringAt m s n) (hfuel : n < fuel) :
    Trims m fuel s n ↔ ∃ c ∈ m.bytes s n, isspace c = false := by
  have hfits := h.fits
  have hpos := h.pos
  have hchars : (∃ c ∈ m.bytes s n, isspace c = false) ↔ ∃ j < n, isspace (m (s + j)) = false := by
    simp only [bytes, List.mem_map, List.mem_range, exists_exists_and_eq_and]
    refine exists_congr fun j => and_congr_right fun hj => ?_
    rw [w32_of_lt (by omega)]
  rw [hchars]
  constructor
  · rintro ⟨p, m', -, -, -, -, hlog, -⟩
    by_contra hno
    push Not at hno
    have := hlog _ (reads_of_blank h hfuel fun j hj => eq_true_of_ne_false (hno j hj))
    omega
  · rintro ⟨j, hj, hword⟩
    exact trims_of_word h hfuel hj hword

/-- The theorem for the string `" a"`. -/
theorem trim_iff_letter :
    Trims (fun x => if x = 10 then 32 else if x = 11 then 97 else 0) 3 10 2 ↔
      ∃ c ∈ Mem.bytes (fun x => if x = 10 then 32 else if x = 11 then 97 else 0) 10 2,
        isspace c = false :=
  trim_iff ⟨by decide, by decide, by decide, by decide⟩ (by decide)

/-- The empty string behind a space: `trim` reads the space, and goes on. -/
theorem trim_empty_outside : StringAt (fun x => if x = 9 then 32 else 0) 10 0 ∧
    ¬ ∃ fuel, Trims (fun x => if x = 9 then 32 else 0) fuel 10 0 := by
  have hstr : StringAt (fun x => if x = 9 then 32 else 0) 10 0 :=
    ⟨by decide, by decide, by decide, by decide⟩
  refine ⟨hstr, ?_⟩
  rintro ⟨fuel, p, m', hrun, -, -, -, hlog, -⟩
  cases fuel with
  | zero => cases hrun
  | succ fuel =>
      have := hlog _ (reads_of_blank hstr (Nat.zero_lt_succ fuel) (by decide))
      omega

end Trim

end Owmice.Mem
