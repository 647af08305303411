import QuantumFlow.Foundation.Selection
import QuantumFlow.Generate.Turn

/-!
# Sampling

`sampleToken` draws a token from logits: it penalises recent tokens, scales by the temperature,
keeps the largest logits, then the nucleus of their softmax, and walks the renormalised
probabilities up to a random threshold. Floats are any type with the operations that the code
uses; how a slice is selected from and sorted is a parameter.
-/

namespace QuantumFlow

/-- The float operations of the sampler. `millionth` is `1e-6`, `ofU64` is the cast of a word. -/
structure FloatOps (F : Type) where
  zero : F
  one : F
  millionth : F
  add : F → F → F
  sub : F → F → F
  mul : F → F → F
  div : F → F → F
  abs : F → F
  exp : F → F
  lt : F → F → Bool
  le : F → F → Bool
  ofU64 : UInt64 → F
  bits : F → UInt32

structure SamplingConfig (F : Type) where
  temperature : F
  topP : F
  topK : Option ℕ
  repeatPenalty : F

variable {F : Type}

/-- Neither less nor greater nor equal when one of the two is not a number. -/
def FloatOps.partialCmp (ops : FloatOps F) (a b : F) : Option Ordering :=
  match ops.le a b, ops.le b a with
  | true, true => some .eq
  | true, false => some .lt
  | false, true => some .gt
  | false, false => none

def FloatOps.sum (ops : FloatOps F) (xs : List F) : F := xs.foldl ops.add ops.zero

/-- Divide by the sum. -/
def FloatOps.normalise (ops : FloatOps F) (xs : List F) : List F := xs.map (ops.div · (ops.sum xs))

variable (ops : FloatOps F)

def SamplingConfig.validate (cfg : SamplingConfig F) : Outcome LogitError Unit :=
  if ops.le cfg.temperature ops.zero then .err (.invalidTemperature (ops.bits cfg.temperature))
  else if ops.le cfg.topP ops.zero || ops.lt ops.one cfg.topP then
    .err (.invalidTopP (ops.bits cfg.topP))
  else .ok ()

/-! ## The random state -/

def xorshift64 (x : UInt64) : UInt64 :=
  let x := x ^^^ (x <<< 13)
  let x := x ^^^ (x >>> 7)
  x ^^^ (x <<< 17)

def threshold (r : UInt64) : F := ops.div (ops.ofU64 r) (ops.ofU64 0xFFFFFFFFFFFFFFFF)

/-! ## Logits -/

/-- Penalise one logit in the direction that reduces its probability. -/
def penalise (penalty l : F) : F :=
  if ops.lt ops.zero l then ops.div l penalty else ops.mul l penalty

/-- Ids outside the logits are skipped. -/
def applyRepeatPenalty (logits : List F) (recent : List TokenId) (penalty : F) : List F :=
  if ops.lt (ops.abs (ops.sub penalty ops.one)) ops.millionth then logits
  else recent.foldl (fun logits tok => logits.modify tok.toNat (penalise ops penalty)) logits

/-- The logits that sampling works with, and leaves to its caller. -/
def scaledLogits (cfg : SamplingConfig F) (logits : List F) (recent : List TokenId) : List F :=
  let invTemp := ops.div ops.one cfg.temperature
  (applyRepeatPenalty ops logits recent cfg.repeatPenalty).map (ops.mul · invTemp)

/-- Larger logits come first. Numbers that cannot be compared count as equal. -/
def descending (logits : List F) (a b : ℕ) : Ordering :=
  (ops.partialCmp (logits.getD b ops.zero) (logits.getD a ops.zero)).getD .eq

/-! ## Candidates -/

/-- The first `k` indices in descending order, by selection, truncation and sorting. With `k = 0`
the index `k - 1` underflows. -/
def topIndices (slices : SliceOps ℕ) (topK : Option ℕ) (logits : List F) : Option (List ℕ) :=
  let vocab := logits.length
  let k := min (topK.getD vocab) vocab
  if k = 0 then none
  else do
    let indices ← slices.selectNth (descending ops logits) (k - 1) (List.range vocab)
    slices.sortUnstable (descending ops logits) (indices.take k)

/-- The softmax over the candidates, relative to the first one. -/
def softmax (logits : List F) : List ℕ → Option (List F)
  | [] => none
  | top :: rest =>
    some (ops.normalise ((top :: rest).map fun i =>
      ops.exp (ops.sub (logits.getD i ops.zero) (logits.getD top ops.zero))))

/-- How many probabilities it takes to reach `topP`, when `cum` is reached already. -/
def cutoffFrom (topP : F) : F → List F → Option ℕ
  | _, [] => none
  | cum, p :: ps =>
    let cum := ops.add cum p
    if ops.le topP cum then some 1 else (cutoffFrom topP cum ps).map (· + 1)

def cutoff (topP : F) (exps : List F) : ℕ := (cutoffFrom ops topP ops.zero exps).getD exps.length

/-- The first candidate with which the cumulative probability reaches the threshold. -/
def pickFrom (threshold : F) : F → List (ℕ × F) → Option ℕ
  | _, [] => none
  | cum, (idx, p) :: rest =>
    let cum := ops.add cum p
    if ops.le threshold cum then some idx else pickFrom threshold cum rest

/-! ## Drawing a token -/

/-- An index that does not exist aborts. -/
def orPanic {ε α : Type} : Option α → Outcome ε α
  | some a => .ok a
  | none => .panic

/-- Draw from logits that are penalised and scaled. Without a candidate at the threshold, the top
candidate is returned. -/
def draw (slices : SliceOps ℕ) (cfg : SamplingConfig F) (logits : List F) (threshold : F) :
    Outcome LogitError TokenId := do
  let indices ← orPanic (topIndices ops slices cfg.topK logits)
  let exps ← orPanic (softmax ops logits indices)
  let cut := cutoff ops cfg.topP exps
  let exps := ops.normalise (exps.take cut)
  let indices := indices.take cut
  let idx ← orPanic ((pickFrom ops threshold ops.zero (indices.zip exps)).or indices[0]?)
  return UInt32.ofNat idx

def sampleAt (slices : SliceOps ℕ) (cfg : SamplingConfig F) (logits : List F)
    (recent : List TokenId) (threshold : F) : Outcome LogitError TokenId := do
  cfg.validate ops
  if logits.isEmpty then .err .emptyLogits
  else draw ops slices cfg (scaledLogits ops cfg logits recent) threshold

def sampleToken (slices : SliceOps ℕ) (cfg : SamplingConfig F) : Sampler F :=
  fun logits recent rng => do
    let r := xorshift64 rng
    let id ← sampleAt ops slices cfg logits recent (threshold ops r)
    return (id, r)

/-! ## Lengths -/

variable {ops}

theorem length_foldl_modify {α : Type} (f : α → α) (recent : List TokenId) (xs : List α) :
    (recent.foldl (fun xs tok => xs.modify tok.toNat f) xs).length = xs.length := by
  induction recent generalizing xs with
  | nil => rfl
  | cons tok recent ih => rw [List.foldl_cons, ih, List.length_modify]

@[simp] theorem length_applyRepeatPenalty (logits : List F) (recent : List TokenId) (penalty : F) :
    (applyRepeatPenalty ops logits recent penalty).length = logits.length := by
  unfold applyRepeatPenalty
  split
  · rfl
  · exact length_foldl_modify _ recent logits

@[simp] theorem length_scaledLogits (cfg : SamplingConfig F) (logits : List F)
    (recent : List TokenId) : (scaledLogits ops cfg logits recent).length = logits.length := by
  simp [scaledLogits]

@[simp] theorem FloatOps.length_normalise (xs : List F) : (ops.normalise xs).length = xs.length :=
  List.length_map _

end QuantumFlow
