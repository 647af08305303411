import QuantumFlow.Tokenizer.Fallback
import QuantumFlow.Tokenizer.Lossless

/-!
# Walking a spelled text

A walk steps over a spelled text by the lengths that it reads off first bytes. It stands at every
code point of the text, in order, and ends at its end. The code points are those of the bytes, one
for each, so a spelling has one reading.
-/

namespace QuantumFlow

/-- The positions a walk visits, with the position where it ends, in at most `fuel` steps. -/
def gpt2WalkFrom (gpt2 : List UInt8) : ℕ → ℕ → List ℕ × ℕ
  | 0, i => ([], i)
  | fuel + 1, i =>
    match gpt2[i]? with
    | none => ([], i)
    | some first =>
      let (visited, last) := gpt2WalkFrom gpt2 fuel (i + gpt2CharLen first)
      (i :: visited, last)

/-- Every step takes at least one byte, so the length is enough fuel. -/
def gpt2Walk (gpt2 : List UInt8) : List ℕ × ℕ := gpt2WalkFrom gpt2 gpt2.length 0

/-- Where the code points of a string begin in its bytes. -/
def codePointStarts (s : String) : List ℕ :=
  (List.range s.toList.length).map fun j => (utf8Chars (s.toList.take j)).length

/-- From the start of a character, the walk visits the starts of the remaining ones. -/
theorem gpt2WalkFrom_charStart (bs : List UInt8) (fuel : ℕ) {j : ℕ} (hj : j ≤ bs.length)
    (hfuel : bs.length ≤ j + fuel) :
    gpt2WalkFrom (bytesToGpt2Unicode bs) fuel (charStart bs j) =
      ((List.range' j (bs.length - j)).map (charStart bs), (bytesToGpt2Unicode bs).length) := by
  induction fuel generalizing j with
  | zero =>
    obtain rfl : j = bs.length := by omega
    simp [gpt2WalkFrom, charStart_length]
  | succ fuel ih =>
    rcases Nat.lt_or_eq_of_le hj with hlt | rfl
    · obtain ⟨c, hc, hnext⟩ := exists_getElem?_charStart hlt
      have hrange : List.range' j (bs.length - j) =
          j :: List.range' (j + 1) (bs.length - (j + 1)) := by
        rw [← List.range'_succ]
        congr 1
        omega
      rw [gpt2WalkFrom, hc]
      dsimp only
      rw [hnext, ih hlt (by omega), hrange, List.map_cons]
    · have hend : (bytesToGpt2Unicode bs)[charStart bs bs.length]? = none := by
        rw [charStart_length]
        simp
      rw [gpt2WalkFrom, hend, charStart_length]
      simp

/-- The starts of code points are the starts of the characters of the bytes. -/
theorem codePointStarts_map_gpt2Char (bs : List UInt8) :
    codePointStarts (String.ofList (bs.map gpt2Char)) =
      (List.range bs.length).map (charStart bs) := by
  unfold codePointStarts charStart
  rw [String.toList_ofList, List.length_map]
  simp only [← List.map_take, ← bytesToGpt2Unicode_eq]

theorem gpt2Walk_eq (bs : List UInt8) :
    gpt2Walk (bytesToGpt2Unicode bs) = (codePointStarts (String.ofList (bs.map gpt2Char)),
      (bytesToGpt2Unicode bs).length) := by
  have hwalk := gpt2WalkFrom_charStart bs (bytesToGpt2Unicode bs).length (Nat.zero_le _)
    (by simpa using length_le_bytesToGpt2Unicode bs)
  rw [charStart_zero, Nat.sub_zero, ← List.range_eq_range'] at hwalk
  rw [gpt2Walk, hwalk, codePointStarts_map_gpt2Char]

/-- A spelling is valid UTF-8 with one code point for each byte. The walk visits exactly the starts
of these code points and ends at the end. No other bytes have this spelling. -/
theorem gpt2_uniquely_decodable (bs : List UInt8) :
    ∃ s, fromUtf8 (bytesToGpt2Unicode bs) = some s ∧
      s.toList = bs.map gpt2Char ∧ s.toList.length = bs.length ∧
      gpt2Walk (bytesToGpt2Unicode bs) = (codePointStarts s, (bytesToGpt2Unicode bs).length) ∧
      ∀ bs', bytesToGpt2Unicode bs' = bytesToGpt2Unicode bs → bs' = bs := by
  refine ⟨String.ofList (bs.map gpt2Char), ?_, String.toList_ofList, ?_, gpt2Walk_eq bs,
    fun bs' h => bytesToGpt2Unicode_injective h⟩
  · rw [bytesToGpt2Unicode_eq_utf8, fromUtf8_utf8]
  · rw [String.toList_ofList, List.length_map]

end QuantumFlow
