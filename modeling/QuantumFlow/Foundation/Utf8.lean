import Mathlib.Data.List.Basic

/-!
# UTF-8 bytes of a string

`utf8 s` is the byte view of a string and `fromUtf8` the checked way back. The two are
inverse to each other, so a byte list is accepted exactly when it is the view of a string.
The encoding of characters is a prefix code: a text that is cut after a whole string leaves
a whole string.
-/

namespace QuantumFlow

/-- The bytes of a string. -/
def utf8 (s : String) : List UInt8 := s.toByteArray.data.toList

/-- The string with these bytes, if they are valid UTF-8. -/
def fromUtf8 (bs : List UInt8) : Option String := String.fromUTF8? ⟨bs.toArray⟩

/-- The bytes of a list of characters. -/
def utf8Chars (cs : List Char) : List UInt8 := cs.flatMap String.utf8EncodeChar

@[simp] theorem utf8Chars_nil : utf8Chars [] = [] := rfl

@[simp] theorem utf8Chars_cons (c : Char) (cs : List Char) :
    utf8Chars (c :: cs) = String.utf8EncodeChar c ++ utf8Chars cs := rfl

@[simp] theorem utf8Chars_append (cs ds : List Char) :
    utf8Chars (cs ++ ds) = utf8Chars cs ++ utf8Chars ds := List.flatMap_append

theorem utf8_eq (s : String) : utf8 s = utf8Chars s.toList := by
  have h := String.utf8Encode_toList (b := s)
  rw [utf8, ← h, List.utf8Encode, utf8Chars]
  simp

@[simp] theorem utf8_ofList (cs : List Char) : utf8 (String.ofList cs) = utf8Chars cs := by
  rw [utf8_eq, String.toList_ofList]

@[simp] theorem utf8_append (s t : String) : utf8 (s ++ t) = utf8 s ++ utf8 t := by
  simp [utf8_eq]

theorem fromUtf8_eq_some_iff {bs : List UInt8} {s : String} :
    fromUtf8 bs = some s ↔ utf8 s = bs := by
  unfold fromUtf8 String.fromUTF8?
  constructor
  · intro h
    split at h
    · cases h
      simp [utf8, String.fromUTF8]
    · cases h
  · rintro rfl
    have hs : (⟨(utf8 s).toArray⟩ : ByteArray) = s.toByteArray := by simp [utf8]
    rw [dif_pos (hs ▸ s.isValidUTF8)]
    congr 1

@[simp] theorem fromUtf8_utf8 (s : String) : fromUtf8 (utf8 s) = some s :=
  fromUtf8_eq_some_iff.mpr rfl

theorem utf8_injective : Function.Injective utf8 := by
  intro s t h
  have hs := fromUtf8_utf8 s
  rw [h, fromUtf8_utf8] at hs
  exact (Option.some.inj hs).symm

/-! ## The prefix code -/

theorem utf8EncodeChar_ne_nil (c : Char) : String.utf8EncodeChar c ≠ [] :=
  String.utf8EncodeChar_ne_nil

/-- No character's bytes begin another character's bytes. -/
theorem utf8EncodeChar_append_inj {c d : Char} {xs ys : List UInt8}
    (h : String.utf8EncodeChar c ++ xs = String.utf8EncodeChar d ++ ys) : c = d ∧ xs = ys := by
  have hdecode : ∀ (e : Char) (zs : List UInt8),
      ByteArray.utf8DecodeChar? (String.utf8EncodeChar e ++ zs).toByteArray 0 = some e := by
    intro e zs
    rw [List.toByteArray_append]
    exact ByteArray.utf8DecodeChar?_utf8EncodeChar_append
  have hcd : c = d := by
    have hc := hdecode c xs
    rw [h, hdecode d ys] at hc
    exact (Option.some.inj hc).symm
  subst hcd
  exact ⟨rfl, List.append_cancel_left h⟩

/-- Cutting whole characters off the front of a text leaves whole characters. -/
theorem utf8Chars_append_eq {cs ds : List Char} {rest : List UInt8}
    (h : utf8Chars cs = utf8Chars ds ++ rest) :
    ∃ es, cs = ds ++ es ∧ rest = utf8Chars es := by
  induction ds generalizing cs with
  | nil => exact ⟨cs, rfl, by simpa using h.symm⟩
  | cons d ds ih =>
    cases cs with
    | nil =>
      rw [utf8Chars_nil, utf8Chars_cons, List.append_assoc] at h
      exact absurd (List.append_eq_nil_iff.mp h.symm).1 (utf8EncodeChar_ne_nil d)
    | cons c cs =>
      rw [utf8Chars_cons, utf8Chars_cons, List.append_assoc] at h
      obtain ⟨rfl, htail⟩ := utf8EncodeChar_append_inj h
      obtain ⟨es, rfl, hrest⟩ := ih htail
      exact ⟨es, rfl, hrest⟩

/-! ## Decoding with replacement -/

def isContinuation (b : UInt8) : Bool := 0x80 ≤ b && b ≤ 0xBF

/-- May `b` follow the first byte `a` of a three-byte character? -/
def isSecondOfThree (a b : UInt8) : Bool :=
  if a = 0xE0 then 0xA0 ≤ b && b ≤ 0xBF
  else if a = 0xED then 0x80 ≤ b && b ≤ 0x9F
  else isContinuation b

/-- May `b` follow the first byte `a` of a four-byte character? -/
def isSecondOfFour (a b : UInt8) : Bool :=
  if a = 0xF0 then 0x90 ≤ b && b ≤ 0xBF
  else if a = 0xF4 then 0x80 ≤ b && b ≤ 0x8F
  else isContinuation b

/-- Six payload bits of a continuation byte. -/
def payload (b : UInt8) : ℕ := b.toNat % 64

/-- The first character of a byte list and the number of bytes it takes, or the number of
bytes of the longest prefix that could have begun one. -/
def scanChar (bs : List UInt8) : Option Char × ℕ :=
  let a := bs.getD 0 0
  let b := bs.getD 1 0
  let c := bs.getD 2 0
  let d := bs.getD 3 0
  if a < 0x80 then (some (Char.ofNat a.toNat), 1)
  else if 0xC2 ≤ a && a ≤ 0xDF then
    if isContinuation b then (some (Char.ofNat (a.toNat % 32 * 64 + payload b)), 2) else (none, 1)
  else if 0xE0 ≤ a && a ≤ 0xEF then
    if ¬ isSecondOfThree a b then (none, 1)
    else if ¬ isContinuation c then (none, 2)
    else (some (Char.ofNat ((a.toNat % 16 * 64 + payload b) * 64 + payload c)), 3)
  else if 0xF0 ≤ a && a ≤ 0xF4 then
    if ¬ isSecondOfFour a b then (none, 1)
    else if ¬ isContinuation c then (none, 2)
    else if ¬ isContinuation d then (none, 3)
    else (some (Char.ofNat (((a.toNat % 8 * 64 + payload b) * 64 + payload c) * 64 + payload d)), 4)
  else (none, 1)

/-- Decode at most `fuel` characters, replacing each ill-formed sequence by U+FFFD. -/
def lossyChars : ℕ → List UInt8 → List Char
  | 0, _ => []
  | _ + 1, [] => []
  | fuel + 1, b :: bs =>
    let (c, n) := scanChar (b :: bs)
    c.getD '\uFFFD' :: lossyChars fuel ((b :: bs).drop n)

/-- The string with these bytes, ill-formed sequences replaced by U+FFFD. Every step
takes at least one byte, so the length is enough fuel. -/
def fromUtf8Lossy (bs : List UInt8) : String := String.ofList (lossyChars bs.length bs)

example : fromUtf8Lossy [104, 0xC3, 0xA9, 0xFF, 0xE2, 0x82] = "hé\uFFFD\uFFFD" := by decide

end QuantumFlow
