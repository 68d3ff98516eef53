import Mathlib.Tactic

/-! # Byte memory of a 32-bit machine

A memory is a function from addresses to bytes; addresses are natural numbers taken modulo
`2 ^ 32` by every access (`w32`), so pointer arithmetic wraps exactly where the hardware
wraps.  Words are four bytes, least significant byte first, and need not be aligned.

* `Mem.read32`, `Mem.write32`: one little-endian word;
* `Mem.load`, `Mem.bytes`: a run of bytes written to, and read from, an address;
* `InWord a x`: byte `x` belongs to the word at `a`.  Every frame lemma is stated with it:
  a write changes the bytes of its own word and no other (`write32_of_not_inWord`), and a
  read depends on the bytes of its own word only (`read32_congr`). -/

namespace Owmice

/-- Truncation of a natural number to 32 bits. -/
@[irreducible] def w32 (n : ℕ) : ℕ := n % 4294967296

/-- Subtraction of 32-bit words. -/
@[irreducible] def sub32 (a b : ℕ) : ℕ := w32 (a + (4294967296 - w32 b))

theorem w32_lt (n : ℕ) : w32 n < 4294967296 := by
  rw [w32]
  exact Nat.mod_lt _ (by norm_num)

theorem w32_of_lt {n : ℕ} (h : n < 4294967296) : w32 n = n := by
  rw [w32]
  exact Nat.mod_eq_of_lt h

@[simp] theorem w32_w32 (n : ℕ) : w32 (w32 n) = w32 n := w32_of_lt (w32_lt n)

theorem sub32_of_le {a b : ℕ} (h : b ≤ a) (ha : a < 4294967296) : sub32 a b = a - b := by
  simp only [sub32, w32]
  omega

theorem sub32_lt (a b : ℕ) : sub32 a b < 4294967296 := by
  rw [sub32]
  exact w32_lt _

theorem sub32_sub32 (a b c : ℕ) : sub32 (sub32 a b) c = sub32 a (b + c) := by
  simp only [sub32, w32]
  omega

/-- Memory: one byte for every address. -/
abbrev Mem := ℕ → UInt8

/-- Byte `x` is one of the four bytes of the word at `a`. -/
def InWord (a x : ℕ) : Prop := x = w32 a ∨ x = w32 (a + 1) ∨ x = w32 (a + 2) ∨ x = w32 (a + 3)

instance (a x : ℕ) : Decidable (InWord a x) := by unfold InWord; infer_instance

theorem InWord.le_lt {a x : ℕ} (ha : a + 4 ≤ 4294967296) (h : InWord a x) : a ≤ x ∧ x < a + 4 := by
  simp only [InWord, w32] at h
  omega

namespace Mem

/-- The little-endian word at `a`. -/
def read32 (m : Mem) (a : ℕ) : ℕ :=
  (m (w32 a)).toNat + 256 * (m (w32 (a + 1))).toNat + 65536 * (m (w32 (a + 2))).toNat +
    16777216 * (m (w32 (a + 3))).toNat

/-- Store `v` as a little-endian word at `a`. -/
def write32 (m : Mem) (a v : ℕ) : Mem := fun x =>
  if x = w32 a then UInt8.ofNat v
  else if x = w32 (a + 1) then UInt8.ofNat (v / 256)
  else if x = w32 (a + 2) then UInt8.ofNat (v / 65536)
  else if x = w32 (a + 3) then UInt8.ofNat (v / 16777216)
  else m x

theorem read32_lt (m : Mem) (a : ℕ) : m.read32 a < 4294967296 := by
  have h0 := (m (w32 a)).toNat_lt
  have h1 := (m (w32 (a + 1))).toNat_lt
  have h2 := (m (w32 (a + 2))).toNat_lt
  have h3 := (m (w32 (a + 3))).toNat_lt
  simp only [read32]
  omega

theorem read32_congr {m m' : Mem} {a : ℕ} (h : ∀ x, InWord a x → m' x = m x) :
    m'.read32 a = m.read32 a := by
  simp only [read32]
  rw [h _ (.inl rfl), h _ (.inr (.inl rfl)), h _ (.inr (.inr (.inl rfl))),
    h _ (.inr (.inr (.inr rfl)))]

theorem read32_of_zero {m : Mem} {a : ℕ} (h : ∀ x, InWord a x → m x = 0) : m.read32 a = 0 :=
  (read32_congr (m := fun _ => 0) h).trans (by simp [read32])

theorem write32_of_not_inWord {a x : ℕ} (m : Mem) (v : ℕ) (h : ¬ InWord a x) :
    m.write32 a v x = m x := by
  simp only [InWord, not_or] at h
  simp [write32, h]

@[simp] theorem read32_write32 (m : Mem) (a v : ℕ) : (m.write32 a v).read32 a = w32 v := by
  have h1 : w32 (a + 1) ≠ w32 a := by simp only [w32]; omega
  have h2 : w32 (a + 2) ≠ w32 a := by simp only [w32]; omega
  have h3 : w32 (a + 3) ≠ w32 a := by simp only [w32]; omega
  have h21 : w32 (a + 2) ≠ w32 (a + 1) := by simp only [w32]; omega
  have h31 : w32 (a + 3) ≠ w32 (a + 1) := by simp only [w32]; omega
  have h32 : w32 (a + 3) ≠ w32 (a + 2) := by simp only [w32]; omega
  simp only [read32, write32, h1, h2, h3, h21, h31, h32, if_true, if_false, UInt8.toNat_ofNat']
  simp only [w32]
  omega

/-- The most significant byte of a word. -/
theorem toNat_top (m : Mem) (a : ℕ) : (m (w32 (a + 3))).toNat = m.read32 a / 16777216 := by
  have h0 := (m (w32 a)).toNat_lt
  have h1 := (m (w32 (a + 1))).toNat_lt
  have h2 := (m (w32 (a + 2))).toNat_lt
  simp only [read32]
  omega

/-- Writing a word that is there changes nothing. -/
theorem write32_read32 (m : Mem) (a : ℕ) : m.write32 a (m.read32 a) = m := by
  have h0 := (m (w32 a)).toNat_lt
  have h1 := (m (w32 (a + 1))).toNat_lt
  have h2 := (m (w32 (a + 2))).toNat_lt
  have h3 := (m (w32 (a + 3))).toNat_lt
  funext x
  simp only [write32, read32]
  split_ifs with e0 e1 e2 e3
  · subst e0
    apply UInt8.toNat_inj.mp
    rw [UInt8.toNat_ofNat']
    omega
  · subst e1
    apply UInt8.toNat_inj.mp
    rw [UInt8.toNat_ofNat']
    omega
  · subst e2
    apply UInt8.toNat_inj.mp
    rw [UInt8.toNat_ofNat']
    omega
  · subst e3
    apply UInt8.toNat_inj.mp
    rw [UInt8.toNat_ofNat']
    omega
  · rfl

/-- Equal words have equal bytes. -/
theorem eq_of_read32 {m m' : Mem} {a x : ℕ} (h : m'.read32 a = m.read32 a) (hx : InWord a x) :
    m' x = m x := by
  have hw : m'.write32 a (m'.read32 a) x = m.write32 a (m.read32 a) x := by
    rw [h]
    simp only [write32]
    split_ifs with h0 h1 h2 h3
    · rfl
    · rfl
    · rfl
    · rfl
    · exact absurd hx (by simp [InWord, h0, h1, h2, h3])
  rwa [write32_read32, write32_read32] at hw

/-- The later write of a word counts. -/
theorem write32_write32 (m : Mem) (a v w : ℕ) : (m.write32 a v).write32 a w = m.write32 a w := by
  funext x
  simp only [write32]
  split_ifs <;> rfl

/-- Words that do not overlap do not interfere. -/
theorem read32_write32_of_disjoint (m : Mem) {a b : ℕ} (v : ℕ) (ha : a + 4 ≤ 4294967296)
    (hb : b + 4 ≤ 4294967296) (h : a + 4 ≤ b ∨ b + 4 ≤ a) :
    (m.write32 a v).read32 b = m.read32 b := by
  apply read32_congr
  intro x hx
  apply write32_of_not_inWord
  intro hx'
  have := hx.le_lt hb
  have := hx'.le_lt ha
  omega

/-- A write changes no byte before or behind its word. -/
theorem write32_outside (m : Mem) {a x : ℕ} (v : ℕ) (ha : a + 4 ≤ 4294967296)
    (hx : x < a ∨ a + 4 ≤ x) : m.write32 a v x = m x := by
  apply write32_of_not_inWord
  intro h
  have := h.le_lt ha
  omega

/-- Every byte that differs between the two memories satisfies `P`. -/
def Only (P : ℕ → Prop) (m m' : Mem) : Prop := ∀ x, ¬ P x → m' x = m x

theorem Only.refl (P : ℕ → Prop) (m : Mem) : Only P m m := fun _ _ => rfl

theorem Only.mono {P Q : ℕ → Prop} {m m' : Mem} (h : Only P m m') (hPQ : ∀ x, P x → Q x) :
    Only Q m m' := fun x hx => h x (fun hP => hx (hPQ x hP))

theorem Only.trans {P : ℕ → Prop} {m m' m'' : Mem} (h : Only P m m') (h' : Only P m' m'') :
    Only P m m'' := fun x hx => (h' x hx).trans (h x hx)

theorem only_write32 (m : Mem) (a v : ℕ) : Only (InWord a) m (m.write32 a v) :=
  fun _ hx => write32_of_not_inWord m v hx

/-- One more write keeps `Only P` when its word satisfies `P`. -/
theorem Only.write32 {P : ℕ → Prop} {m m' : Mem} (h : Only P m m') {a : ℕ} (v : ℕ)
    (ha : ∀ x, InWord a x → P x) : Only P m (m'.write32 a v) :=
  h.trans ((only_write32 m' a v).mono ha)

theorem Only.read32 {P : ℕ → Prop} {m m' : Mem} (h : Only P m m') {a : ℕ}
    (ha : ∀ x, InWord a x → ¬ P x) : m'.read32 a = m.read32 a :=
  read32_congr fun x hx => h x (ha x hx)

/-- Copy the bytes `bs` to the addresses from `a` on. -/
def load (m : Mem) (a : ℕ) (bs : List UInt8) : Mem := fun x =>
  if x < 4294967296 ∧ sub32 x a < bs.length then bs.getD (sub32 x a) 0 else m x

/-- The `n` bytes from address `a` on. -/
def bytes (m : Mem) (a n : ℕ) : List UInt8 := (List.range n).map (fun i => m (w32 (a + i)))

@[simp] theorem length_bytes (m : Mem) (a n : ℕ) : (m.bytes a n).length = n := by simp [bytes]

theorem getElem_bytes (m : Mem) (a n : ℕ) {k : ℕ} (h : k < (m.bytes a n).length) :
    (m.bytes a n)[k] = m (w32 (a + k)) := by
  simp [bytes]

theorem load_apply (m : Mem) {a : ℕ} {bs : List UInt8} {i : ℕ} (h : i < bs.length)
    (ha : a + bs.length ≤ 4294967296) : m.load a bs (a + i) = bs[i] := by
  have e : sub32 (a + i) a = i := by rw [sub32_of_le (by omega) (by omega)]; omega
  have hlt : a + i < 4294967296 := by omega
  simp [load, e, h, hlt]

theorem load_outside (m : Mem) {a x : ℕ} {bs : List UInt8} (ha : a + bs.length ≤ 4294967296)
    (hx : x < a ∨ a + bs.length ≤ x) : m.load a bs x = m x := by
  have : ¬ (x < 4294967296 ∧ sub32 x a < bs.length) := by
    rintro ⟨hx', h⟩
    simp only [sub32, w32] at h
    omega
  simp [load, this]

/-- The first byte, and then the others. -/
theorem load_cons (m : Mem) (a : ℕ) (b : UInt8) {bs : List UInt8} (h : bs.length < 4294967296) :
    m.load a (b :: bs) = Mem.load (Function.update m (w32 a) b) (a + 1) bs := by
  funext x
  have hw := w32_lt a
  by_cases hx : x < 4294967296
  case neg =>
    simp only [load, hx, false_and, if_false]
    rw [Function.update_of_ne (by omega)]
  by_cases ha : x = w32 a
  · have hzero : sub32 x a = 0 := by
      subst ha
      simp only [sub32, w32]
      omega
    have hlast : sub32 x (a + 1) = 4294967295 := by
      subst ha
      simp only [sub32, w32]
      omega
    have hout : ¬ sub32 x (a + 1) < bs.length := by omega
    simp only [load, hx, hzero, hout, List.length_cons, Nat.zero_lt_succ, and_self, and_false,
      if_true, if_false, List.getD_cons_zero]
    rw [ha, Function.update_self]
  · have hsucc : sub32 x a = sub32 x (a + 1) + 1 := by
      simp only [sub32, w32] at ha ⊢
      omega
    simp only [load, hsucc, List.length_cons, Nat.add_lt_add_iff_right, List.getD_cons_succ]
    rw [Function.update_of_ne ha]

theorem bytes_congr {m m' : Mem} {a n : ℕ} (h : ∀ i < n, m' (w32 (a + i)) = m (w32 (a + i))) :
    m'.bytes a n = m.bytes a n := by
  apply List.map_congr_left
  intro i hi
  exact h i (List.mem_range.mp hi)

theorem bytes_load (m : Mem) {a : ℕ} {bs : List UInt8} (ha : a + bs.length ≤ 4294967296) :
    (m.load a bs).bytes a bs.length = bs := by
  apply List.ext_getElem (by simp)
  intro i hi _
  have hi' : i < bs.length := by simpa using hi
  simp only [bytes, List.getElem_map, List.getElem_range]
  rw [w32_of_lt (by omega), load_apply m hi' ha]

end Mem

end Owmice
