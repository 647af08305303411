import QuantumFlow.Foundation.Utf8

/-!
# Bytes as GPT-2 characters

The vocabulary spells every byte as one printable character. `bytesToGpt2Unicode` is that
spelling, in UTF-8; `gpt2CharLen` and `origByteAt` walk it back. Each byte becomes one whole
character, so a spelled text is valid UTF-8 and can be cut after any byte.
-/

namespace QuantumFlow

/-- The bytes that stand for themselves. -/
def isPrintable (b : ℕ) : Bool :=
  (33 ≤ b && b ≤ 126) || (161 ≤ b && b ≤ 172) || (174 ≤ b && b ≤ 255)

/-- The table from `b` on, when `n` bytes below `b` have been given a character from 256 up. -/
def tableFrom : ℕ → ℕ → ℕ → List ℕ
  | 0, _, _ => []
  | left + 1, b, n =>
    if isPrintable b then b :: tableFrom left (b + 1) n
    else (256 + n) :: tableFrom left (b + 1) (n + 1)

def TABLE : List ℕ := tableFrom 256 0 0

def encodeCodepoint (cp : ℕ) : List UInt8 :=
  if cp < 0x80 then [UInt8.ofNat cp]
  else if cp < 0x800 then
    [(0xC0 : UInt8) ||| UInt8.ofNat (cp >>> 6), (0x80 : UInt8) ||| UInt8.ofNat (cp &&& 0x3F)]
  else
    [(0xE0 : UInt8) ||| UInt8.ofNat (cp >>> 12),
      (0x80 : UInt8) ||| UInt8.ofNat ((cp >>> 6) &&& 0x3F),
      (0x80 : UInt8) ||| UInt8.ofNat (cp &&& 0x3F)]

/-- The spelling of one byte. -/
def gpt2Bytes (byte : UInt8) : List UInt8 := encodeCodepoint (TABLE.getD byte.toNat 0)

def bytesToGpt2Unicode (input : List UInt8) : List UInt8 := input.flatMap gpt2Bytes

def gpt2CharLen (firstByte : UInt8) : ℕ :=
  if firstByte < 0x80 then 1 else if firstByte < 0xE0 then 2 else 3

/-- The scan from original index `idx` and spelled position `g`; `none` is an index out of
bounds. -/
def origByteAtFrom (gpt2 : List UInt8) (gpt2Pos : ℕ) : List UInt8 → ℕ → ℕ → Option ℕ
  | [], _, _ => some 0
  | _ :: orig, idx, g =>
    if g = gpt2Pos then some idx
    else do
      let first ← gpt2[g]?
      origByteAtFrom gpt2 gpt2Pos orig (idx + 1) (g + gpt2CharLen first)

/-- The original index of the byte spelled at `gpt2Pos`. -/
def origByteAt (orig gpt2 : List UInt8) (gpt2Pos : ℕ) : Option ℕ :=
  origByteAtFrom gpt2 gpt2Pos orig 0 0

/-! ## One character for each byte -/

/-- The character of a byte. -/
def gpt2Char (byte : UInt8) : Char := Char.ofNat (TABLE.getD byte.toNat 0)

/-- The table entry of `b`: the bytes 0 to 32, 127 to 160 and 173 are numbered from 256 up. -/
def codepointOf (b : ℕ) : ℕ :=
  if b < 33 then 256 + b else if b < 127 then b else if b < 161 then 162 + b
  else if b = 173 then 323 else b

theorem TABLE_eq : TABLE = (List.range 256).map codepointOf := by decide +kernel

theorem getD_TABLE (b : UInt8) : TABLE.getD b.toNat 0 = codepointOf b.toNat := by
  rw [TABLE_eq, List.getD_eq_getElem?_getD, List.getElem?_map, List.getElem?_range b.toNat_lt]
  rfl

theorem gpt2Bytes_eq (b : UInt8) : gpt2Bytes b = String.utf8EncodeChar (gpt2Char b) := by
  have hall : ∀ n : Fin 256, encodeCodepoint (codepointOf n) =
      String.utf8EncodeChar (Char.ofNat (codepointOf n)) := by decide +kernel
  rw [gpt2Bytes, gpt2Char, getD_TABLE]
  exact hall b.toFin

/-- The byte of a character. -/
def byteOfChar (c : Char) : UInt8 :=
  let cp := c.toNat
  UInt8.ofNat (if cp < 256 then cp else if cp < 289 then cp - 256
    else if cp < 323 then cp - 162 else 173)

theorem byteOfChar_gpt2Char (b : UInt8) : byteOfChar (gpt2Char b) = b := by
  have hall : ∀ n : Fin 256, byteOfChar (Char.ofNat (codepointOf n)) = UInt8.ofFin n := by
    decide +kernel
  rw [gpt2Char, getD_TABLE]
  exact hall b.toFin

/-- No two bytes share a character. -/
theorem gpt2Char_injective : Function.Injective gpt2Char :=
  Function.LeftInverse.injective byteOfChar_gpt2Char

theorem gpt2Bytes_ne_nil (b : UInt8) : gpt2Bytes b ≠ [] := by
  rw [gpt2Bytes_eq]
  exact utf8EncodeChar_ne_nil _

/-- A byte spells itself exactly in the printable ASCII range; otherwise it takes two bytes. -/
theorem gpt2Bytes_cases (b : UInt8) :
    (33 ≤ b ∧ b ≤ 126 ∧ gpt2Bytes b = [b]) ∨
      (¬ (33 ≤ b ∧ b ≤ 126) ∧ (gpt2Bytes b).length = 2) := by
  have hall : ∀ n : Fin 256, let b := UInt8.ofFin n
      (33 ≤ b ∧ b ≤ 126 ∧ encodeCodepoint (codepointOf n) = [b]) ∨
        (¬ (33 ≤ b ∧ b ≤ 126) ∧ (encodeCodepoint (codepointOf n)).length = 2) := by decide +kernel
  rw [gpt2Bytes, getD_TABLE]
  exact hall b.toFin

theorem length_gpt2Bytes_le (b : UInt8) : (gpt2Bytes b).length ≤ 2 := by
  rcases gpt2Bytes_cases b with ⟨-, -, hb⟩ | ⟨-, hb⟩ <;> simp [hb]

@[simp] theorem bytesToGpt2Unicode_nil : bytesToGpt2Unicode [] = [] := rfl

@[simp] theorem bytesToGpt2Unicode_cons (b : UInt8) (bs : List UInt8) :
    bytesToGpt2Unicode (b :: bs) = gpt2Bytes b ++ bytesToGpt2Unicode bs := rfl

@[simp] theorem bytesToGpt2Unicode_append (as bs : List UInt8) :
    bytesToGpt2Unicode (as ++ bs) = bytesToGpt2Unicode as ++ bytesToGpt2Unicode bs :=
  List.flatMap_append

theorem bytesToGpt2Unicode_eq (bs : List UInt8) :
    bytesToGpt2Unicode bs = utf8Chars (bs.map gpt2Char) := by
  induction bs with
  | nil => rfl
  | cons b bs ih => rw [bytesToGpt2Unicode_cons, gpt2Bytes_eq, ih, List.map_cons, utf8Chars_cons]

/-- A spelled text is the byte view of a string. -/
theorem bytesToGpt2Unicode_eq_utf8 (bs : List UInt8) :
    bytesToGpt2Unicode bs = utf8 (String.ofList (bs.map gpt2Char)) := by
  rw [utf8_ofList, bytesToGpt2Unicode_eq]

theorem length_le_bytesToGpt2Unicode (bs : List UInt8) :
    bs.length ≤ (bytesToGpt2Unicode bs).length := by
  induction bs with
  | nil => simp
  | cons b bs ih =>
    have hb := List.length_pos_iff.mpr (gpt2Bytes_ne_nil b)
    simp only [bytesToGpt2Unicode_cons, List.length_cons, List.length_append]
    omega

/-- The spelling changes nothing exactly on printable ASCII. -/
theorem bytesToGpt2Unicode_eq_self_iff (bs : List UInt8) :
    bytesToGpt2Unicode bs = bs ↔ ∀ b ∈ bs, 33 ≤ b ∧ b ≤ 126 := by
  induction bs with
  | nil => simp
  | cons b bs ih =>
    rw [bytesToGpt2Unicode_cons, List.forall_mem_cons]
    rcases gpt2Bytes_cases b with ⟨hlo, hhi, hb⟩ | ⟨hout, hb⟩
    · rw [hb, List.singleton_append, List.cons.injEq, ih]
      simp [hlo, hhi]
    · constructor
      · intro h
        have hlen := congrArg List.length h
        have hle := length_le_bytesToGpt2Unicode bs
        simp only [List.length_append, List.length_cons, hb] at hlen
        omega
      · exact fun h => absurd h.1 hout

/-- Cutting a spelled text after whole characters cuts it after a byte. -/
theorem bytesToGpt2Unicode_append_eq {bs : List UInt8} {s : String} {rest : List UInt8}
    (h : bytesToGpt2Unicode bs = utf8 s ++ rest) :
    ∃ as cs, bs = as ++ cs ∧ utf8 s = bytesToGpt2Unicode as ∧ rest = bytesToGpt2Unicode cs := by
  rw [bytesToGpt2Unicode_eq, utf8_eq] at h
  obtain ⟨es, hmap, hrest⟩ := utf8Chars_append_eq h
  obtain ⟨as, cs, rfl, has, hcs⟩ := List.map_eq_append_iff.mp hmap
  refine ⟨as, cs, rfl, ?_, ?_⟩
  · rw [bytesToGpt2Unicode_eq, has, utf8_eq]
  · rw [bytesToGpt2Unicode_eq, hcs, hrest]

end QuantumFlow
