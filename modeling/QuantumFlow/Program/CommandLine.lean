import Mathlib.Algebra.Order.Ring.Nat
import Mathlib.Data.List.Induction
import Mathlib.Logic.ExistsUnique

/-!
# The command line

`parse_args` walks over the words of the command line. An option that needs a value takes the next
word, whatever it looks like. A command line is read in one way only, and each field of the result
is what the last word for it says: a value that is missing or does not parse clears the field again.
-/

namespace QuantumFlow

structure Args (F : Type) where
  modelPath : Option String := none
  prompt : Option String := none
  chat : Bool := false
  bench : Bool := false
  maxTokens : Option ℕ := none
  temperature : Option F := none
  topP : Option F := none
  noChatTemplate : Bool := false
  help : Bool := false

/-- The options that take a value. -/
inductive Key where
  | model
  | prompt
  | maxTokens
  | temperature
  | topP
deriving DecidableEq

/-- The options that take none. -/
inductive Flag where
  | chat
  | bench
  | noTemplate
  | help
deriving DecidableEq

def Key.ofWord : String → Option Key
  | "--model" | "-m" => some .model
  | "--prompt" | "-p" => some .prompt
  | "--max-tokens" | "-n" => some .maxTokens
  | "--temperature" | "-t" => some .temperature
  | "--top-p" => some .topP
  | _ => none

def Flag.ofWord : String → Option Flag
  | "--chat" | "-c" => some .chat
  | "--bench" | "-b" => some .bench
  | "--no-template" => some .noTemplate
  | "--help" | "-h" => some .help
  | _ => none

/-- A number is an optional plus sign and decimal digits, and has to fit into 64 bits. -/
def usizeFromStr (s : String) : Option ℕ :=
  let digits := if s.toList.head? = some '+' then s.toList.tail else s.toList
  if digits.isEmpty || !digits.all Char.isDigit then none
  else if Nat.ofDigitChars 10 digits 0 < 2 ^ 64 then some (Nat.ofDigitChars 10 digits 0)
  else none

/-- A number in decimal is read back exactly when it fits. -/
theorem usizeFromStr_toString (n : ℕ) :
    usizeFromStr (toString n) = if n < 2 ^ 64 then some n else none := by
  have hdigits : (toString n).toList = Nat.toDigits 10 n := by
    simp [toString, Nat.repr]
  have hdigit : ∀ c ∈ Nat.toDigits 10 n, c.isDigit := fun c hc =>
    Nat.isDigit_of_mem_toDigits (by decide) (by decide) hc
  have hplus : (Nat.toDigits 10 n).head? ≠ some '+' := by
    intro h
    exact absurd (hdigit '+' (List.mem_of_mem_head? h)) (by decide)
  have hall : (Nat.toDigits 10 n).all Char.isDigit = true := List.all_eq_true.mpr hdigit
  have hne : (Nat.toDigits 10 n).isEmpty = false := by simp
  simp only [usizeFromStr, hdigits, if_neg hplus, hall, hne]
  simp [Nat.ofDigitChars_ten_toDigits]

section ParseArgs

variable {F : Type} (f32FromStr : String → Option F)

def Args.put (key : Key) (value : Option String) (a : Args F) : Args F :=
  match key with
  | .model => { a with modelPath := value }
  | .prompt => { a with prompt := value }
  | .maxTokens => { a with maxTokens := value.bind usizeFromStr }
  | .temperature => { a with temperature := value.bind f32FromStr }
  | .topP => { a with topP := value.bind f32FromStr }

def Args.raise (flag : Flag) (a : Args F) : Args F :=
  match flag with
  | .chat => { a with chat := true }
  | .bench => { a with bench := true }
  | .noTemplate => { a with noChatTemplate := true }
  | .help => { a with help := true }

def parseArgsFrom : List String → Args F → Args F
  | [], a => a
  | word :: rest, a =>
    match Key.ofWord word with
    | some key =>
      match rest with
      | [] => a.put f32FromStr key none
      | value :: rest => parseArgsFrom rest (a.put f32FromStr key (some value))
    | none =>
      match Flag.ofWord word with
      | some flag => parseArgsFrom rest (a.raise flag)
      | none => parseArgsFrom rest a -- a warning

def parseArgs (raw : List String) : Args F := parseArgsFrom f32FromStr raw {}

end ParseArgs

/-! ## Readings -/

/-- An option with its value, an option that the command line ends with, or a single word. -/
inductive Reading where
  | valued (word value : String)
  | dangling (word : String)
  | alone (word : String)

namespace Reading

def words : Reading → List String
  | valued word value => [word, value]
  | dangling word => [word]
  | alone word => [word]

/-- Options that need a value have one, except at the end. -/
inductive Proper : List Reading → Prop
  | nil : Proper []
  | valued {word value : String} {rs : List Reading} :
      Key.ofWord word ≠ none → Proper rs → Proper (.valued word value :: rs)
  | dangling {word : String} : Key.ofWord word ≠ none → Proper [.dangling word]
  | alone {word : String} {rs : List Reading} :
      Key.ofWord word = none → Proper rs → Proper (.alone word :: rs)

/-- The value that is given for an option, which may be missing. -/
def valueOf (key : Key) : Reading → Option (Option String)
  | valued word value => if Key.ofWord word = some key then some (some value) else none
  | dangling word => if Key.ofWord word = some key then some none else none
  | alone _ => none

def raises (flag : Flag) : Reading → Bool
  | alone word => Flag.ofWord word = some flag
  | _ => false

end Reading

def lastValue (key : Key) (rs : List Reading) : Option String :=
  ((rs.filterMap (Reading.valueOf key)).getLast?).join

section ArgsOf

variable {F : Type} (f32FromStr : String → Option F)

/-- Each field is what its last reading says. -/
def argsOf (rs : List Reading) : Args F where
  modelPath := lastValue .model rs
  prompt := lastValue .prompt rs
  chat := rs.any (Reading.raises .chat)
  bench := rs.any (Reading.raises .bench)
  maxTokens := (lastValue .maxTokens rs).bind usizeFromStr
  temperature := (lastValue .temperature rs).bind f32FromStr
  topP := (lastValue .topP rs).bind f32FromStr
  noChatTemplate := rs.any (Reading.raises .noTemplate)
  help := rs.any (Reading.raises .help)

end ArgsOf

/-! ## A command line is read in one way -/

open Reading

theorem exists_proper : ∀ raw : List String, ∃ rs, Proper rs ∧ rs.flatMap words = raw
  | [] => ⟨[], .nil, rfl⟩
  | [word] => by
    by_cases hword : Key.ofWord word = none
    · exact ⟨[.alone word], .alone hword .nil, rfl⟩
    · exact ⟨[.dangling word], .dangling hword, rfl⟩
  | word :: value :: rest => by
    by_cases hword : Key.ofWord word = none
    · obtain ⟨rs, hrs, heq⟩ := exists_proper (value :: rest)
      exact ⟨.alone word :: rs, .alone hword hrs, by simp [words, heq]⟩
    · obtain ⟨rs, hrs, heq⟩ := exists_proper rest
      exact ⟨.valued word value :: rs, .valued hword hrs, by simp [words, heq]⟩

theorem Reading.Proper.unique {rs rs' : List Reading} (h : Proper rs) (h' : Proper rs')
    (heq : rs.flatMap words = rs'.flatMap words) : rs = rs' := by
  induction h generalizing rs' with
  | nil =>
    cases h' with
    | nil => rfl
    | _ => simp [words] at heq
  | valued hword hrs ih =>
    cases h' with
    | nil => simp [words] at heq
    | valued hword' hrs' =>
      obtain ⟨rfl, rfl, hrest⟩ : _ ∧ _ ∧ _ := by simpa [words] using heq
      rw [ih hrs' hrest]
    | dangling => simp [words] at heq
    | alone hword' =>
      obtain ⟨rfl, -⟩ : _ ∧ _ := by simpa [words] using heq
      exact absurd hword' hword
  | dangling hword =>
    cases h' with
    | nil => simp [words] at heq
    | valued => simp [words] at heq
    | dangling =>
      obtain rfl : _ = _ := by simpa [words] using heq
      rfl
    | alone hword' =>
      obtain ⟨rfl, -⟩ : _ ∧ _ := by simpa [words] using heq
      exact absurd hword' hword
  | alone hword hrs ih =>
    cases h' with
    | nil => simp [words] at heq
    | valued hword' =>
      obtain ⟨rfl, -⟩ : _ ∧ _ := by simpa [words] using heq
      exact absurd hword hword'
    | dangling hword' =>
      obtain ⟨rfl, -⟩ : _ ∧ _ := by simpa [words] using heq
      exact absurd hword hword'
    | alone hword' hrs' =>
      obtain ⟨rfl, hrest⟩ : _ ∧ _ := by simpa [words] using heq
      rw [ih hrs' hrest]

/-! ## What is parsed -/

section Parsed

variable {F : Type} (f32FromStr : String → Option F)

/-- What one reading does. -/
def Args.apply (a : Args F) (r : Reading) : Args F :=
  match r with
  | .valued word value =>
    match Key.ofWord word with
    | some key => a.put f32FromStr key (some value)
    | none => a
  | .dangling word =>
    match Key.ofWord word with
    | some key => a.put f32FromStr key none
    | none => a
  | .alone word =>
    match Flag.ofWord word with
    | some flag => a.raise flag
    | none => a

theorem parseArgsFrom_words {rs : List Reading} (h : Proper rs) (a : Args F) :
    parseArgsFrom f32FromStr (rs.flatMap words) a = rs.foldl (Args.apply f32FromStr) a := by
  induction h generalizing a with
  | nil => rfl
  | @valued word value rs hword _ ih =>
    obtain ⟨key, hkey⟩ := Option.ne_none_iff_exists'.mp hword
    simp only [List.flatMap_cons, words, List.cons_append, List.nil_append, List.foldl_cons]
    unfold parseArgsFrom
    simp only [hkey, ih, Args.apply]
  | @dangling word hword =>
    obtain ⟨key, hkey⟩ := Option.ne_none_iff_exists'.mp hword
    simp only [List.flatMap_cons, words, List.flatMap_nil, List.cons_append, List.nil_append,
      List.foldl_cons, List.foldl_nil]
    unfold parseArgsFrom
    simp only [hkey, Args.apply]
  | @alone word rs hword _ ih =>
    simp only [List.flatMap_cons, words, List.cons_append, List.nil_append, List.foldl_cons]
    unfold parseArgsFrom
    cases hflag : Flag.ofWord word <;> simp only [hword, hflag, ih, Args.apply]

/-! ### The last reading of a field decides -/

theorem lastValue_concat (key : Key) (rs : List Reading) (r : Reading) :
    lastValue key (rs ++ [r]) = (r.valueOf key).getD (lastValue key rs) := by
  rw [lastValue, List.filterMap_append]
  cases hvalue : r.valueOf key <;> simp [lastValue, hvalue]

theorem argsOf_concat_of_value {r : Reading} {key : Key} {value : Option String}
    (hvalue : ∀ key', r.valueOf key' = if key = key' then some value else none)
    (hraises : ∀ flag, r.raises flag = false) (rs : List Reading) :
    argsOf f32FromStr (rs ++ [r]) = (argsOf f32FromStr rs).put f32FromStr key value := by
  cases key <;> simp [argsOf, lastValue_concat, Args.put, hvalue, hraises]

theorem argsOf_concat_of_silent {r : Reading} (hvalue : ∀ key, r.valueOf key = none)
    (hraises : ∀ flag, r.raises flag = false) (rs : List Reading) :
    argsOf f32FromStr (rs ++ [r]) = argsOf f32FromStr rs := by
  simp [argsOf, lastValue_concat, hvalue, hraises]

theorem argsOf_concat (rs : List Reading) (r : Reading) :
    argsOf f32FromStr (rs ++ [r]) = (argsOf f32FromStr rs).apply f32FromStr r := by
  cases r with
  | valued word value =>
    cases hword : Key.ofWord word with
    | none =>
      simp only [Args.apply, hword]
      exact argsOf_concat_of_silent f32FromStr (by simp [valueOf, hword]) (fun _ => rfl) rs
    | some key =>
      simp only [Args.apply, hword]
      exact argsOf_concat_of_value f32FromStr (by simp [valueOf, hword]) (fun _ => rfl) rs
  | dangling word =>
    cases hword : Key.ofWord word with
    | none =>
      simp only [Args.apply, hword]
      exact argsOf_concat_of_silent f32FromStr (by simp [valueOf, hword]) (fun _ => rfl) rs
    | some key =>
      simp only [Args.apply, hword]
      exact argsOf_concat_of_value f32FromStr (by simp [valueOf, hword]) (fun _ => rfl) rs
  | alone word =>
    cases hword : Flag.ofWord word with
    | none =>
      simp only [Args.apply, hword]
      exact argsOf_concat_of_silent f32FromStr (fun _ => rfl) (by simp [raises, hword]) rs
    | some flag =>
      cases flag <;> simp [argsOf, lastValue_concat, Args.apply, Args.raise, valueOf, raises, hword]

theorem foldl_apply (rs : List Reading) :
    rs.foldl (Args.apply f32FromStr) {} = argsOf f32FromStr rs := by
  induction rs using List.reverseRecOn with
  | nil => rfl
  | append_singleton rs r ih =>
    rw [List.foldl_append, List.foldl_cons, List.foldl_nil, ih, argsOf_concat]

end Parsed

/-- Every command line has one reading, and what is parsed is what the last word for each field
says in it. A limit in decimal is read as itself exactly if it fits. -/
theorem parseArgs_last {F : Type} (f32FromStr : String → Option F) (raw : List String) :
    (∃! rs, Proper rs ∧ rs.flatMap words = raw) ∧
      ∀ rs, Proper rs → rs.flatMap words = raw →
        parseArgs f32FromStr raw = argsOf f32FromStr rs ∧
          ∀ n : ℕ, lastValue .maxTokens rs = some (toString n) →
            (parseArgs f32FromStr raw).maxTokens = if n < 2 ^ 64 then some n else none := by
  constructor
  · obtain ⟨rs, hrs, heq⟩ := exists_proper raw
    refine ⟨rs, ⟨hrs, heq⟩, ?_⟩
    rintro rs' ⟨hrs', heq'⟩
    exact hrs'.unique hrs (heq'.trans heq.symm)
  · rintro rs hrs rfl
    have hargs : parseArgs f32FromStr (rs.flatMap words) = argsOf f32FromStr rs := by
      rw [parseArgs, parseArgsFrom_words f32FromStr hrs, foldl_apply]
    refine ⟨hargs, fun n hlast => ?_⟩
    rw [hargs, argsOf, hlast, Option.bind_some, usizeFromStr_toString]

/-- An option is taken for a prompt, and the number before the end is forgotten. -/
theorem parseArgs_last_dangling :
    let a : Args ℕ := parseArgs (fun _ => none) ["-n", "8", "-p", "--chat", "-n"]
    a.prompt = some "--chat" ∧ a.maxTokens = none ∧ a.chat = false := by
  have hargs : parseArgs (fun _ => (none : Option ℕ)) ["-n", "8", "-p", "--chat", "-n"] =
      argsOf (fun _ => none) [.valued "-n" "8", .valued "-p" "--chat", .dangling "-n"] :=
    ((parseArgs_last _ _).2 _
      (.valued (by decide) (.valued (by decide) (.dangling (by decide)))) rfl).1
  rw [hargs]
  decide

end QuantumFlow
