import QuantumFlow.Foundation.Utf8

/-!
# Decoding with replacement, piece by piece

The bytes of a character come in four shapes. `scanChar` finds a character exactly where the
bytes of one begin, and replaces what can only begin one. Decoding a text in two pieces gives the
decoding of the whole unless the first piece ends inside a character that the second continues:
then the two pieces have more replacements than the whole.
-/

namespace QuantumFlow

/-! ## The shapes of a character -/

theorem isContinuation_iff {b : UInt8} : isContinuation b ↔ 128 ≤ b.toNat ∧ b.toNat ≤ 191 := by
  simp [isContinuation, UInt8.le_iff_toNat_le]

theorem isSecondOfThree_iff {a b : UInt8} : isSecondOfThree a b ↔
    128 ≤ b.toNat ∧ b.toNat ≤ 191 ∧ (a.toNat = 224 → 160 ≤ b.toNat) ∧
      (a.toNat = 237 → b.toNat ≤ 159) := by
  unfold isSecondOfThree isContinuation
  simp only [← UInt8.toNat_inj, UInt8.reduceToNat, UInt8.le_iff_toNat_le]
  split
  · simp
    omega
  · split <;> simp <;> omega

theorem isSecondOfFour_iff {a b : UInt8} : isSecondOfFour a b ↔
    128 ≤ b.toNat ∧ b.toNat ≤ 191 ∧ (a.toNat = 240 → 144 ≤ b.toNat) ∧
      (a.toNat = 244 → b.toNat ≤ 143) := by
  unfold isSecondOfFour isContinuation
  simp only [← UInt8.toNat_inj, UInt8.reduceToNat, UInt8.le_iff_toNat_le]
  split
  · simp
    omega
  · split <;> simp <;> omega

/-- The bytes of one character. -/
inductive IsChar : List UInt8 → Prop
  | one {a : UInt8} : a.toNat < 128 → IsChar [a]
  | two {a b : UInt8} : 194 ≤ a.toNat → a.toNat ≤ 223 → isContinuation b → IsChar [a, b]
  | three {a b c : UInt8} : 224 ≤ a.toNat → a.toNat ≤ 239 → isSecondOfThree a b →
      isContinuation c → IsChar [a, b, c]
  | four {a b c d : UInt8} : 240 ≤ a.toNat → a.toNat ≤ 244 → isSecondOfFour a b →
      isContinuation c → isContinuation d → IsChar [a, b, c, d]

theorem isChar_utf8EncodeChar (c : Char) : IsChar (String.utf8EncodeChar c) := by
  have hvalid := c.valid
  simp only [UInt32.isValidChar, Nat.isValidChar] at hvalid
  unfold String.utf8EncodeChar
  generalize c.val.toNat = n at hvalid
  dsimp only
  split
  · apply IsChar.one
    simp; omega
  · split
    · apply IsChar.two
      · simp; omega
      · simp; omega
      · simp [isContinuation_iff]; omega
    · split
      · apply IsChar.three
        · simp; omega
        · simp; omega
        · simp [isSecondOfThree_iff]; omega
        · simp [isContinuation_iff]; omega
      · apply IsChar.four
        · simp; omega
        · simp; omega
        · simp [isSecondOfFour_iff]; omega
        · simp [isContinuation_iff]; omega
        · simp [isContinuation_iff]; omega

/-! ## The scan, by the first byte -/

section Scan

variable {a : UInt8} (bs : List UInt8)

theorem scanChar_of_ascii (h : a.toNat < 128) :
    scanChar (a :: bs) = (some (Char.ofNat a.toNat), 1) := by
  unfold scanChar
  simp only [List.getD_cons_zero, UInt8.lt_iff_toNat_lt, UInt8.reduceToNat]
  rw [if_pos h]

theorem scanChar_of_two (h : 194 ≤ a.toNat) (h' : a.toNat ≤ 223) :
    scanChar (a :: bs) = if isContinuation (bs.getD 0 0) then
      (some (Char.ofNat (a.toNat % 32 * 64 + payload (bs.getD 0 0))), 2) else (none, 1) := by
  unfold scanChar
  simp only [List.getD_cons_zero, List.getD_cons_succ, UInt8.lt_iff_toNat_lt,
    UInt8.le_iff_toNat_le, UInt8.reduceToNat, Bool.and_eq_true, decide_eq_true_eq]
  rw [if_neg (by omega), if_pos ⟨h, h'⟩]

theorem scanChar_of_three (h : 224 ≤ a.toNat) (h' : a.toNat ≤ 239) :
    scanChar (a :: bs) =
      if ¬ isSecondOfThree a (bs.getD 0 0) then (none, 1)
      else if ¬ isContinuation (bs.getD 1 0) then (none, 2)
      else (some (Char.ofNat ((a.toNat % 16 * 64 + payload (bs.getD 0 0)) * 64 +
        payload (bs.getD 1 0))), 3) := by
  unfold scanChar
  simp only [List.getD_cons_zero, List.getD_cons_succ, UInt8.lt_iff_toNat_lt,
    UInt8.le_iff_toNat_le, UInt8.reduceToNat, Bool.and_eq_true, decide_eq_true_eq]
  rw [if_neg (by omega), if_neg (by omega), if_pos ⟨h, h'⟩]

theorem scanChar_of_four (h : 240 ≤ a.toNat) (h' : a.toNat ≤ 244) :
    scanChar (a :: bs) =
      if ¬ isSecondOfFour a (bs.getD 0 0) then (none, 1)
      else if ¬ isContinuation (bs.getD 1 0) then (none, 2)
      else if ¬ isContinuation (bs.getD 2 0) then (none, 3)
      else (some (Char.ofNat (((a.toNat % 8 * 64 + payload (bs.getD 0 0)) * 64 +
        payload (bs.getD 1 0)) * 64 + payload (bs.getD 2 0))), 4) := by
  unfold scanChar
  simp only [List.getD_cons_zero, List.getD_cons_succ, UInt8.lt_iff_toNat_lt,
    UInt8.le_iff_toNat_le, UInt8.reduceToNat, Bool.and_eq_true, decide_eq_true_eq]
  rw [if_neg (by omega), if_neg (by omega), if_neg (by omega), if_pos ⟨h, h'⟩]

/-- Continuation bytes and bytes that UTF-8 never uses. -/
theorem scanChar_of_other (h : (128 ≤ a.toNat ∧ a.toNat < 194) ∨ 244 < a.toNat) :
    scanChar (a :: bs) = (none, 1) := by
  unfold scanChar
  simp only [List.getD_cons_zero, List.getD_cons_succ, UInt8.lt_iff_toNat_lt,
    UInt8.le_iff_toNat_le, UInt8.reduceToNat, Bool.and_eq_true, decide_eq_true_eq]
  rw [if_neg (by omega), if_neg (by omega), if_neg (by omega), if_neg (by omega)]

end Scan

theorem toNat_val_ofNat {n : ℕ} (h : n.isValidChar) : (Char.ofNat n).val.toNat = n := by
  rw [Char.ofNat, dif_pos h]
  rfl

/-- Where the bytes of a character begin, that character is scanned. -/
theorem IsChar.scanChar_append {bs : List UInt8} (h : IsChar bs) (rest : List UInt8) :
    ∃ c, scanChar (bs ++ rest) = (some c, bs.length) ∧ String.utf8EncodeChar c = bs := by
  cases h with
  | one ha =>
    refine ⟨_, scanChar_of_ascii _ ha, ?_⟩
    unfold String.utf8EncodeChar
    rw [toNat_val_ofNat (Or.inl (by omega))]
    dsimp only
    rw [if_pos (by omega), UInt8.ofNat_toNat]
  | two ha ha' hb =>
    refine ⟨_, (scanChar_of_two _ ha ha').trans (if_pos hb), ?_⟩
    rw [isContinuation_iff] at hb
    unfold String.utf8EncodeChar payload
    rw [toNat_val_ofNat (Or.inl (by simp; omega))]
    dsimp only
    rw [if_neg (by simp; omega), if_pos (by simp; omega)]
    simp [← UInt8.toNat_inj]
    omega
  | three ha ha' hb hc =>
    refine ⟨_, (scanChar_of_three _ ha ha').trans
      ((if_neg (not_not.mpr hb)).trans (if_neg (not_not.mpr hc))), ?_⟩
    rw [isSecondOfThree_iff] at hb
    rw [isContinuation_iff] at hc
    unfold String.utf8EncodeChar payload
    rw [toNat_val_ofNat (by simp [Nat.isValidChar]; omega)]
    dsimp only
    rw [if_neg (by simp; omega), if_neg (by simp; omega), if_pos (by simp; omega)]
    simp [← UInt8.toNat_inj]
    omega
  | four ha ha' hb hc hd =>
    refine ⟨_, (scanChar_of_four _ ha ha').trans
      ((if_neg (not_not.mpr hb)).trans
        ((if_neg (not_not.mpr hc)).trans (if_neg (not_not.mpr hd)))), ?_⟩
    rw [isSecondOfFour_iff] at hb
    rw [isContinuation_iff] at hc hd
    unfold String.utf8EncodeChar payload
    rw [toNat_val_ofNat (by simp [Nat.isValidChar]; omega)]
    dsimp only
    rw [if_neg (by simp; omega), if_neg (by simp; omega), if_neg (by simp; omega)]
    simp [← UInt8.toNat_inj]
    omega

theorem scanChar_utf8EncodeChar_append (c : Char) (rest : List UInt8) :
    scanChar (String.utf8EncodeChar c ++ rest) = (some c, (String.utf8EncodeChar c).length) := by
  obtain ⟨d, hscan, hd⟩ := (isChar_utf8EncodeChar c).scanChar_append rest
  have hdc : d = c := (utf8EncodeChar_append_inj (congrArg (· ++ []) hd)).1
  rw [hscan, hdc]

/-! ## Beginnings of a character -/

/-- These bytes are the first bytes of a character. -/
def BeginsChar (p : List UInt8) : Prop := ∃ c, p <+: String.utf8EncodeChar c

theorem BeginsChar.of_prefix {p q : List UInt8} (h : BeginsChar q) (hpq : p <+: q) :
    BeginsChar p := by
  obtain ⟨c, hc⟩ := h
  exact ⟨c, hpq.trans hc⟩

theorem beginsChar_iff {p : List UInt8} : BeginsChar p ↔ ∃ q, IsChar (p ++ q) := by
  constructor
  · rintro ⟨c, q, hq⟩
    exact ⟨q, hq ▸ isChar_utf8EncodeChar c⟩
  · rintro ⟨q, hq⟩
    obtain ⟨c, -, hc⟩ := hq.scanChar_append []
    exact ⟨c, hc ▸ List.prefix_append p q⟩

/-- Only the first byte of a character is no continuation byte. -/
theorem IsChar.isContinuation_of_mem {a : UInt8} {bs : List UInt8} (h : IsChar (a :: bs)) :
    (∀ b ∈ bs, isContinuation b) ∧ ¬ isContinuation a := by
  simp only [isContinuation_iff]
  cases h with
  | one ha =>
    simp
    omega
  | two ha ha' hb =>
    rw [isContinuation_iff] at hb
    simp
    omega
  | three ha ha' hb hc =>
    rw [isSecondOfThree_iff] at hb
    rw [isContinuation_iff] at hc
    simp
    omega
  | four ha ha' hb hc hd =>
    rw [isSecondOfFour_iff] at hb
    rw [isContinuation_iff] at hc hd
    simp
    omega

theorem BeginsChar.isContinuation_of_mem {a : UInt8} {bs : List UInt8} (h : BeginsChar (a :: bs)) :
    (∀ b ∈ bs, isContinuation b) ∧ ¬ isContinuation a := by
  obtain ⟨q, hq⟩ := beginsChar_iff.mp h
  obtain ⟨hbs, ha⟩ := hq.isContinuation_of_mem
  exact ⟨fun b hb => hbs b (List.mem_append_left q hb), ha⟩

/-- The first byte rules the second. -/
theorem BeginsChar.second {a b : UInt8} {bs : List UInt8} (h : BeginsChar (a :: b :: bs)) :
    194 ≤ a.toNat ∧ a.toNat ≤ 244 ∧ (224 ≤ a.toNat → a.toNat ≤ 239 → isSecondOfThree a b) ∧
      (240 ≤ a.toNat → isSecondOfFour a b) := by
  obtain ⟨q, hq⟩ := beginsChar_iff.mp h
  generalize hl : a :: b :: bs ++ q = l at hq
  cases hq with
  | one ha => cases hl
  | two ha ha' hb =>
    obtain ⟨rfl, htail⟩ := List.cons.inj hl
    exact ⟨ha, by omega, by omega, by omega⟩
  | three ha ha' hb hc =>
    obtain ⟨rfl, htail⟩ := List.cons.inj hl
    obtain ⟨rfl, -⟩ := List.cons.inj htail
    exact ⟨by omega, by omega, fun _ _ => hb, by omega⟩
  | four ha ha' hb hc hd =>
    obtain ⟨rfl, htail⟩ := List.cons.inj hl
    obtain ⟨rfl, -⟩ := List.cons.inj htail
    exact ⟨by omega, ha', by omega, fun _ => hb⟩

/-! ## What a scan replaces -/

/-- At the front of `p ++ rest` the bytes `p` are replaced: they begin a character, unless they
are a single byte, and do not go on with `rest`. -/
structure Malformed (p rest : List UInt8) : Prop where
  ne_nil : p ≠ []
  begins : p.length = 1 ∨ BeginsChar p
  ends : ∀ b bs, rest = b :: bs → ¬ BeginsChar (p ++ [b])
  scan : scanChar (p ++ rest) = (none, p.length)

/-- A byte that is missing continues nothing. -/
theorem exists_of_getD {f : UInt8 → Bool} (h0 : f 0 = false) {bs : List UInt8}
    (h : f (bs.getD 0 0) = true) : ∃ b bs', bs = b :: bs' ∧ f b = true := by
  cases bs with
  | nil => simp [h0] at h
  | cons b bs => exact ⟨b, bs, rfl, h⟩

theorem isSecondOfThree_zero (a : UInt8) : isSecondOfThree a 0 = false :=
  Bool.eq_false_iff.mpr fun h => absurd (isSecondOfThree_iff.mp h).1 (by decide)

theorem isSecondOfFour_zero (a : UInt8) : isSecondOfFour a 0 = false :=
  Bool.eq_false_iff.mpr fun h => absurd (isSecondOfFour_iff.mp h).1 (by decide)

/-- A single byte is replaced when no next byte goes on with it. -/
theorem malformed_one {a : UInt8} {bs : List UInt8} (hscan : scanChar (a :: bs) = (none, 1))
    (hends : ∀ b bs', bs = b :: bs' → ¬ BeginsChar [a, b]) : Malformed [a] bs :=
  ⟨by simp, Or.inl rfl, hends, hscan⟩

/-- More bytes are replaced when they begin a character and no continuation byte follows. -/
theorem malformed_of_isChar {p q bs : List UInt8} (hne : p ≠ []) (hchar : IsChar (p ++ q))
    (hend : ¬ isContinuation (bs.getD 0 0)) (hscan : scanChar (p ++ bs) = (none, p.length)) :
    Malformed p bs := by
  refine ⟨hne, Or.inr (beginsChar_iff.mpr ⟨q, hchar⟩), ?_, hscan⟩
  rintro b bs' rfl hbegins
  obtain ⟨a, p, rfl⟩ := List.exists_cons_of_ne_nil hne
  exact hend (hbegins.isContinuation_of_mem.1 b (by simp))

/-- A scan takes a character, or bytes that are replaced. -/
theorem scanChar_cases {bs : List UInt8} (h : bs ≠ []) :
    (∃ p rest, bs = p ++ rest ∧ IsChar p) ∨ ∃ p rest, bs = p ++ rest ∧ Malformed p rest := by
  have h128 : isContinuation 128 := by decide
  obtain ⟨a, bs, rfl⟩ := List.exists_cons_of_ne_nil h
  have hlead : a.toNat < 128 ∨ (194 ≤ a.toNat ∧ a.toNat ≤ 223) ∨
      (224 ≤ a.toNat ∧ a.toNat ≤ 239) ∨ (240 ≤ a.toNat ∧ a.toNat ≤ 244) ∨
      ((128 ≤ a.toNat ∧ a.toNat < 194) ∨ 244 < a.toNat) := by omega
  rcases hlead with ha | ⟨ha, ha'⟩ | ⟨ha, ha'⟩ | ⟨ha, ha'⟩ | ha
  · exact Or.inl ⟨[a], bs, rfl, .one ha⟩
  · by_cases hb : isContinuation (bs.getD 0 0)
    · obtain ⟨b, bs, rfl, hb⟩ := exists_of_getD (by decide) hb
      exact Or.inl ⟨[a, b], bs, rfl, .two ha ha' hb⟩
    · have hscan := (scanChar_of_two bs ha ha').trans (if_neg hb)
      exact Or.inr ⟨[a], bs, rfl, malformed_of_isChar (by simp) (.two ha ha' h128) hb hscan⟩
  · have hscan := scanChar_of_three bs ha ha'
    by_cases hb : isSecondOfThree a (bs.getD 0 0)
    · obtain ⟨b, bs, rfl, hb⟩ := exists_of_getD (isSecondOfThree_zero a) hb
      have hscan := hscan.trans (if_neg (not_not.mpr hb))
      by_cases hc : isContinuation (bs.getD 0 0)
      · obtain ⟨c, bs, rfl, hc⟩ := exists_of_getD (by decide) hc
        exact Or.inl ⟨[a, b, c], bs, rfl, .three ha ha' hb hc⟩
      · exact Or.inr ⟨[a, b], bs, rfl,
          malformed_of_isChar (by simp) (.three ha ha' hb h128) hc (hscan.trans (if_pos hc))⟩
    · refine Or.inr ⟨[a], bs, rfl, malformed_one (hscan.trans (if_pos hb)) ?_⟩
      rintro b bs' rfl hbegins
      exact hb (hbegins.second.2.2.1 ha ha')
  · have hscan := scanChar_of_four bs ha ha'
    by_cases hb : isSecondOfFour a (bs.getD 0 0)
    · obtain ⟨b, bs, rfl, hb⟩ := exists_of_getD (isSecondOfFour_zero a) hb
      have hscan := hscan.trans (if_neg (not_not.mpr hb))
      by_cases hc : isContinuation (bs.getD 0 0)
      · obtain ⟨c, bs, rfl, hc⟩ := exists_of_getD (by decide) hc
        have hscan := hscan.trans (if_neg (not_not.mpr hc))
        by_cases hd : isContinuation (bs.getD 0 0)
        · obtain ⟨d, bs, rfl, hd⟩ := exists_of_getD (by decide) hd
          exact Or.inl ⟨[a, b, c, d], bs, rfl, .four ha ha' hb hc hd⟩
        · exact Or.inr ⟨[a, b, c], bs, rfl,
            malformed_of_isChar (by simp) (.four ha ha' hb hc h128) hd (hscan.trans (if_pos hd))⟩
      · exact Or.inr ⟨[a, b], bs, rfl,
          malformed_of_isChar (by simp) (.four ha ha' hb h128 h128) hc (hscan.trans (if_pos hc))⟩
    · refine Or.inr ⟨[a], bs, rfl, malformed_one (hscan.trans (if_pos hb)) ?_⟩
      rintro b bs' rfl hbegins
      exact hb (hbegins.second.2.2.2 ha)
  · refine Or.inr ⟨[a], bs, rfl, malformed_one (scanChar_of_other bs ha) ?_⟩
    rintro b bs' rfl hbegins
    have hlead := hbegins.second
    omega

/-! ## Decoding, one replacement or character at a time -/

/-- The characters of a byte list, ill-formed sequences replaced by U+FFFD. -/
def lossy (bs : List UInt8) : List Char := lossyChars bs.length bs

theorem fromUtf8Lossy_eq (bs : List UInt8) : fromUtf8Lossy bs = String.ofList (lossy bs) := rfl

@[simp] theorem lossy_nil : lossy [] = [] := rfl

theorem IsChar.ne_nil {p : List UInt8} (h : IsChar p) : p ≠ [] := by
  cases h <;> simp

theorem scanChar_pos {bs : List UInt8} (h : bs ≠ []) : 0 < (scanChar bs).2 := by
  rcases scanChar_cases h with ⟨p, rest, rfl, hp⟩ | ⟨p, rest, rfl, hp⟩
  · obtain ⟨c, hscan, -⟩ := hp.scanChar_append rest
    rw [hscan]
    exact List.length_pos_iff.mpr hp.ne_nil
  · rw [hp.scan]
    exact List.length_pos_iff.mpr hp.ne_nil

theorem lossyChars_succ {fuel : ℕ} {bs : List UInt8} (h : bs ≠ []) :
    lossyChars (fuel + 1) bs =
      (scanChar bs).1.getD '\uFFFD' :: lossyChars fuel (bs.drop (scanChar bs).2) := by
  obtain ⟨b, bs, rfl⟩ := List.exists_cons_of_ne_nil h
  rfl

/-- Any fuel from the length on gives the same characters. -/
theorem lossyChars_eq {fuel fuel' : ℕ} {bs : List UInt8} (h : bs.length ≤ fuel)
    (h' : bs.length ≤ fuel') : lossyChars fuel bs = lossyChars fuel' bs := by
  induction fuel generalizing fuel' bs with
  | zero =>
    rw [List.length_eq_zero_iff.mp (Nat.le_zero.mp h)]
    cases fuel' <;> rfl
  | succ fuel ih =>
    by_cases hnil : bs = []
    · rw [hnil]
      cases fuel' <;> rfl
    · have hpos := scanChar_pos hnil
      have hlen := List.length_pos_iff.mpr hnil
      obtain ⟨fuel', rfl⟩ : ∃ n, fuel' = n + 1 := ⟨fuel' - 1, by omega⟩
      have htail : lossyChars fuel (bs.drop (scanChar bs).2) =
          lossyChars fuel' (bs.drop (scanChar bs).2) :=
        ih (by rw [List.length_drop]; omega) (by rw [List.length_drop]; omega)
      rw [lossyChars_succ hnil, lossyChars_succ hnil, htail]

theorem lossy_of_scanChar {p rest : List UInt8} {o : Option Char} (hne : p ≠ [])
    (hscan : scanChar (p ++ rest) = (o, p.length)) :
    lossy (p ++ rest) = o.getD '\uFFFD' :: lossy rest := by
  have hpos := List.length_pos_iff.mpr hne
  have hfuel : lossy (p ++ rest) = lossyChars (rest.length + p.length - 1 + 1) (p ++ rest) :=
    lossyChars_eq (by simp) (by simp; omega)
  have hrest : lossyChars (rest.length + p.length - 1) rest = lossy rest :=
    lossyChars_eq (by omega) (Nat.le_refl _)
  rw [hfuel, lossyChars_succ (by simp [hne]), hscan, List.drop_left, hrest]

@[simp] theorem lossy_utf8EncodeChar_append (c : Char) (rest : List UInt8) :
    lossy (String.utf8EncodeChar c ++ rest) = c :: lossy rest :=
  lossy_of_scanChar (utf8EncodeChar_ne_nil c) (scanChar_utf8EncodeChar_append c rest)

theorem Malformed.lossy_append {p rest : List UInt8} (h : Malformed p rest) :
    lossy (p ++ rest) = '\uFFFD' :: lossy rest :=
  lossy_of_scanChar h.ne_nil h.scan

/-- Every byte list is read off its front, a character or a replacement at a time. -/
theorem lossy_induction {motive : List UInt8 → Prop} (nil : motive [])
    (char : ∀ c rest, motive rest → motive (String.utf8EncodeChar c ++ rest))
    (malformed : ∀ p rest, Malformed p rest → motive rest → motive (p ++ rest))
    (bs : List UInt8) : motive bs := by
  induction hn : bs.length using Nat.strongRecOn generalizing bs with
  | ind n ih =>
    by_cases hnil : bs = []
    · rw [hnil]
      exact nil
    · rcases scanChar_cases hnil with ⟨p, rest, rfl, hp⟩ | ⟨p, rest, rfl, hp⟩
      · obtain ⟨c, -, rfl⟩ := hp.scanChar_append []
        have hpos := List.length_pos_iff.mpr hp.ne_nil
        rw [List.length_append] at hn
        exact char c rest (ih rest.length (by omega) rest rfl)
      · have hpos := List.length_pos_iff.mpr hp.ne_nil
        rw [List.length_append] at hn
        exact malformed p rest hp (ih rest.length (by omega) rest rfl)

/-- Valid bytes are decoded without replacement. -/
theorem lossy_utf8Chars (cs : List Char) : lossy (utf8Chars cs) = cs := by
  induction cs with
  | nil => rfl
  | cons c cs ih => rw [utf8Chars_cons, lossy_utf8EncodeChar_append, ih]

theorem lossy_utf8Chars_append (cs : List Char) (rest : List UInt8) :
    lossy (utf8Chars cs ++ rest) = cs ++ lossy rest := by
  induction cs with
  | nil => rfl
  | cons c cs ih =>
    rw [utf8Chars_cons, List.append_assoc, lossy_utf8EncodeChar_append, ih, List.cons_append]

/-- Checked decoding with a fallback is decoding with replacement. -/
theorem getD_fromUtf8 (bs : List UInt8) : (fromUtf8 bs).getD (fromUtf8Lossy bs) =
    String.ofList (lossy bs) := by
  cases h : fromUtf8 bs with
  | none => rfl
  | some s =>
    rw [← fromUtf8_eq_some_iff.mp h, utf8_eq, lossy_utf8Chars]
    simp

theorem lossy_of_isContinuation {b : UInt8} (h : isContinuation b) (bs : List UInt8) :
    lossy (b :: bs) = '\uFFFD' :: lossy bs := by
  rw [isContinuation_iff] at h
  exact lossy_of_scanChar (p := [b]) (by simp) (scanChar_of_other bs (Or.inl (by omega)))

theorem length_lossy_of_isContinuation {k : List UInt8} (h : ∀ b ∈ k, isContinuation b)
    (rest : List UInt8) : (lossy (k ++ rest)).length = k.length + (lossy rest).length := by
  induction k with
  | nil => simp
  | cons b k ih =>
    rw [List.cons_append, lossy_of_isContinuation (h b (by simp)), List.length_cons,
      ih fun b' hb' => h b' (by simp [hb']), List.length_cons]
    omega

/-! ## Two pieces -/

/-- `x` ends inside a character that the first byte of `y` goes on with. -/
def Joins (x y : List UInt8) : Prop :=
  ∃ p b bs, p ≠ [] ∧ p <:+ x ∧ y = b :: bs ∧ BeginsChar (p ++ [b])

theorem Joins.of_suffix {x x' y : List UInt8} (h : Joins x' y) (hx : x' <:+ x) : Joins x y := by
  obtain ⟨p, b, bs, hne, hp, hy, hbegins⟩ := h
  exact ⟨p, b, bs, hne, hp.trans hx, hy, hbegins⟩

/-- Nothing joins with a byte that begins a character. -/
theorem not_joins_of_begins {x p y : List UInt8} (hne : p ≠ []) (h : BeginsChar p) :
    ¬ Joins x (p ++ y) := by
  rintro ⟨q, b, bs, hq, -, hy, hbegins⟩
  obtain ⟨a, p, rfl⟩ := List.exists_cons_of_ne_nil hne
  obtain ⟨a', q, rfl⟩ := List.exists_cons_of_ne_nil hq
  obtain ⟨rfl, -⟩ := List.cons.inj hy
  exact h.isContinuation_of_mem.2 (hbegins.isContinuation_of_mem.1 a (by simp))

/-- A character's bytes begin no longer character. -/
theorem IsChar.not_begins_append {q x : List UInt8} (h : IsChar q) (hx : x ≠ []) :
    ¬ BeginsChar (q ++ x) := by
  rintro ⟨c, rest, hc⟩
  obtain ⟨d, -, rfl⟩ := h.scanChar_append []
  rw [List.append_assoc] at hc
  have htail := (utf8EncodeChar_append_inj (hc.trans (List.append_nil _).symm)).2
  exact hx (List.append_eq_nil_iff.mp htail).1

theorem isPrefix_append_cons (p : List UInt8) (b : UInt8) (as : List UInt8) :
    p ++ [b] <+: p ++ b :: as := ⟨as, by simp⟩

/-- All replaced bytes but the first go on with a character. -/
theorem Malformed.begins_append {p as rest : List UInt8} {b : UInt8}
    (h : Malformed (p ++ b :: as) rest) (hne : p ≠ []) : BeginsChar (p ++ [b]) := by
  have hpos := List.length_pos_iff.mpr hne
  rcases h.begins with hone | hbegins
  · simp at hone
    omega
  · exact hbegins.of_prefix (isPrefix_append_cons p b as)

/-- Whether bytes are replaced depends on the next byte only. -/
theorem Malformed.of_ends {p rest rest' : List UInt8} (h : Malformed p rest)
    (hends : ∀ b bs, rest' = b :: bs → ¬ BeginsChar (p ++ [b])) : Malformed p rest' := by
  refine ⟨h.ne_nil, h.begins, hends, ?_⟩
  have hnone : ∀ q r, IsChar q → p ++ rest ≠ q ++ r := by
    intro q r hq heq
    obtain ⟨c, hscan, -⟩ := hq.scanChar_append r
    rw [← heq, h.scan] at hscan
    cases hscan
  have hne : p ++ rest' ≠ [] := by simp [h.ne_nil]
  rcases scanChar_cases hne with ⟨q, r, heq, hq⟩ | ⟨q, r, heq, hq⟩
  · rcases List.append_eq_append_iff.mp heq with ⟨as, rfl, hrest⟩ | ⟨as, rfl, -⟩
    · cases as with
      | nil => exact absurd rfl (hnone _ rest (by simpa using hq))
      | cons b as =>
        have hbegins : BeginsChar (p ++ b :: as) := beginsChar_iff.mpr ⟨[], by simpa using hq⟩
        exact absurd (hbegins.of_prefix (isPrefix_append_cons p b as)) (hends b _ hrest)
    · exact absurd (List.append_assoc q as rest) (hnone q _ hq)
  · rcases List.append_eq_append_iff.mp heq with ⟨as, rfl, hrest⟩ | ⟨as, rfl, hr⟩
    · cases as with
      | nil => simpa [heq] using hq.scan
      | cons b as => exact absurd (hq.begins_append h.ne_nil) (hends b _ hrest)
    · cases as with
      | nil =>
        rw [heq, List.append_nil]
        exact hq.scan
      | cons b as => exact absurd (h.begins_append hq.ne_nil) (hq.ends b _ hr)

/-- Pieces that do not join are decoded one by one. -/
theorem lossy_append {x y : List UInt8} (h : ¬ Joins x y) :
    lossy (x ++ y) = lossy x ++ lossy y := by
  induction x using lossy_induction with
  | nil => rfl
  | char c rest ih =>
    have hrest := ih fun hj => h (hj.of_suffix (List.suffix_append _ rest))
    rw [List.append_assoc, lossy_utf8EncodeChar_append, lossy_utf8EncodeChar_append, hrest,
      List.cons_append]
  | malformed p rest hp ih =>
    have hrest := ih fun hj => h (hj.of_suffix (List.suffix_append p rest))
    have hp' : Malformed p (rest ++ y) := by
      apply hp.of_ends
      intro b bs hbs hbegins
      cases rest with
      | nil => exact h ⟨p, b, bs, hp.ne_nil, by simp, hbs, hbegins⟩
      | cons b' rest =>
        obtain ⟨rfl, -⟩ := List.cons.inj hbs
        exact hp.ends _ rest rfl hbegins
    rw [List.append_assoc, hp'.lossy_append, hp.lossy_append, hrest, List.cons_append]

/-- Decoding takes a first byte and continuation bytes, as long as they go on with a
character. -/
theorem exists_lossy_cons {bs : List UInt8} (h : bs ≠ []) :
    ∃ a q r c, bs = a :: q ++ r ∧ (∀ b ∈ q, isContinuation b) ∧
      (∀ b r', r = b :: r' → ¬ BeginsChar (a :: q ++ [b])) ∧ lossy bs = c :: lossy r := by
  rcases scanChar_cases h with ⟨p, r, rfl, hp⟩ | ⟨p, r, rfl, hp⟩
  · obtain ⟨a, q, rfl⟩ := List.exists_cons_of_ne_nil hp.ne_nil
    obtain ⟨c, hscan, -⟩ := hp.scanChar_append r
    exact ⟨a, q, r, c, rfl, hp.isContinuation_of_mem.1,
      fun b r' _ => hp.not_begins_append (by simp), lossy_of_scanChar hp.ne_nil hscan⟩
  · obtain ⟨a, q, rfl⟩ := List.exists_cons_of_ne_nil hp.ne_nil
    refine ⟨a, q, r, _, rfl, ?_, hp.ends, hp.lossy_append⟩
    rcases hp.begins with hone | hbegins
    · have hnil : q = [] := by simpa using hone
      simp [hnil]
    · exact hbegins.isContinuation_of_mem.1

/-- What joins with the beginning of a character is decoded together with it. -/
theorem lossy_of_begins {p bs : List UInt8} {b : UInt8} (hne : p ≠ []) (h : BeginsChar (p ++ [b])) :
    ∃ k rest c, b :: bs = k ++ rest ∧ k ≠ [] ∧ (∀ b' ∈ k, isContinuation b') ∧
      lossy (p ++ b :: bs) = c :: lossy rest := by
  obtain ⟨a, q, r, c, heq, hcont, hends, hlossy⟩ :=
    exists_lossy_cons (show p ++ b :: bs ≠ [] by simp)
  rcases List.append_eq_append_iff.mp heq with ⟨as, hq, hbs⟩ | ⟨as, rfl, hr⟩
  · cases as with
    | nil =>
      rw [List.append_nil] at hq
      exact absurd (hq ▸ h) (hends b bs hbs.symm)
    | cons b' as =>
      refine ⟨b' :: as, r, c, hbs, by simp, ?_, hlossy⟩
      obtain ⟨a', p, rfl⟩ := List.exists_cons_of_ne_nil hne
      obtain ⟨-, rfl⟩ := List.cons.inj hq
      exact fun x hx => hcont x (List.mem_append_right p hx)
  · cases as with
    | nil => exact absurd (by simpa using h) (hends b bs hr)
    | cons x as =>
      have hx : BeginsChar (a :: q ++ [x]) := by
        apply h.of_prefix
        exact ⟨as ++ [b], by simp⟩
      exact absurd hx (hends x _ hr)

/-- Pieces that join have more characters than their concatenation. -/
theorem length_lossy_append_lt {x y : List UInt8} (h : Joins x y) :
    (lossy (x ++ y)).length < (lossy x).length + (lossy y).length := by
  obtain ⟨p, b, bs, hne, ⟨pre, rfl⟩, rfl, hbegins⟩ := h
  have hp : BeginsChar p := hbegins.of_prefix (List.prefix_append p [b])
  obtain ⟨k, rest, c, hbs, hk, hcont, hlossy⟩ :
      ∃ k rest c, b :: bs = k ++ rest ∧ k ≠ [] ∧ (∀ b' ∈ k, isContinuation b') ∧
        lossy (p ++ b :: bs) = c :: lossy rest := lossy_of_begins hne hbegins
  have hx : lossy (pre ++ p) = lossy pre ++ lossy p := by
    apply lossy_append
    simpa using not_joins_of_begins (x := pre) (y := []) hne hp
  have hxy : lossy (pre ++ p ++ b :: bs) = lossy pre ++ c :: lossy rest := by
    rw [List.append_assoc, lossy_append (not_joins_of_begins hne hp), hlossy]
  have hy : (lossy (b :: bs)).length = k.length + (lossy rest).length := by
    rw [hbs, length_lossy_of_isContinuation hcont]
  have hpos : 0 < (lossy p).length := by
    obtain ⟨a, q, r, c, -, -, -, hlossy⟩ := exists_lossy_cons hne
    simp [hlossy]
  have hkpos := List.length_pos_iff.mpr hk
  rw [hx, hxy, hy]
  simp only [List.length_append, List.length_cons]
  omega

/-! ## Many pieces -/

/-- Some piece joins with what follows it. -/
def Seam : List (List UInt8) → Prop
  | [] => False
  | x :: xs => Joins x xs.flatten ∨ Seam xs

theorem lossy_flatten {xs : List (List UInt8)} (h : ¬ Seam xs) :
    lossy xs.flatten = xs.flatMap lossy := by
  induction xs with
  | nil => rfl
  | cons x xs ih =>
    simp only [Seam, not_or] at h
    rw [List.flatten_cons, lossy_append h.1, ih h.2, List.flatMap_cons]

theorem length_lossy_flatten_le (xs : List (List UInt8)) :
    (lossy xs.flatten).length ≤ (xs.flatMap lossy).length := by
  induction xs with
  | nil => exact Nat.le_refl _
  | cons x xs ih =>
    rw [List.flatten_cons, List.flatMap_cons, List.length_append]
    by_cases hj : Joins x xs.flatten
    · have hlt := length_lossy_append_lt hj
      omega
    · rw [lossy_append hj, List.length_append]
      omega

theorem length_lossy_flatten_lt {xs : List (List UInt8)} (h : Seam xs) :
    (lossy xs.flatten).length < (xs.flatMap lossy).length := by
  induction xs with
  | nil => exact absurd h id
  | cons x xs ih =>
    rw [List.flatten_cons, List.flatMap_cons, List.length_append]
    by_cases hj : Joins x xs.flatten
    · have hlt := length_lossy_append_lt hj
      have hle := length_lossy_flatten_le xs
      omega
    · have hlt := ih (h.resolve_left hj)
      rw [lossy_append hj, List.length_append]
      omega

/-- Pieces of which no two join have no seam, whatever their order. -/
theorem not_seam_of_forall {xs : List (List UInt8)}
    (h : ∀ x ∈ xs, ∀ y ∈ xs, ¬ Joins x y) : ¬ Seam xs := by
  induction xs with
  | nil => exact id
  | cons x xs ih =>
    rintro (⟨p, b, bs, hne, hp, hflat, hbegins⟩ | hseam)
    · obtain ⟨as, bs', cs, rfl, -, -⟩ := List.flatten_eq_cons_iff.mp hflat
      exact h x (by simp) (b :: bs') (by simp) ⟨p, b, bs', hne, hp, rfl, hbegins⟩
    · exact ih (fun y hy z hz => h y (by simp [hy]) z (by simp [hz])) hseam

/-! ## Single characters -/

/-- A character other than the replacement is decoded exactly where its bytes stand. -/
theorem mem_lossy_iff {c : Char} (hc : c ≠ '\uFFFD') {bs : List UInt8} :
    c ∈ lossy bs ↔ String.utf8EncodeChar c <:+: bs := by
  constructor
  · induction bs using lossy_induction with
    | nil => simp
    | char d rest ih =>
      intro h
      rw [lossy_utf8EncodeChar_append] at h
      rcases List.mem_cons.mp h with rfl | h
      · exact ⟨[], rest, rfl⟩
      · exact (ih h).trans (List.suffix_append _ rest).isInfix
    | malformed p rest hp ih =>
      intro h
      rw [hp.lossy_append] at h
      exact (ih ((List.mem_cons.mp h).resolve_left hc)).trans (List.suffix_append p rest).isInfix
  · rintro ⟨s, t, rfl⟩
    have hbegins : BeginsChar (String.utf8EncodeChar c) := ⟨c, List.prefix_refl _⟩
    rw [List.append_assoc,
      lossy_append (not_joins_of_begins (utf8EncodeChar_ne_nil c) hbegins),
      lossy_utf8EncodeChar_append]
    simp

end QuantumFlow
