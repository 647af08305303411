import QuantumFlow.Foundation.Format
import QuantumFlow.Gguf.RoundTrip

/-!
# Hostile headers

The reader takes any bytes, and asks the host for room for every count before it reads what is
counted. The formats below say where the counts of a header are. On a host that serves no
request for more than the bytes left, the reader aborts exactly when it comes to a count that is
more than the bytes after it, or when the last alignment of a complete header is zero.
-/

namespace QuantumFlow.Gguf

open Reader

/-! ## The counts of a header -/

def stringFormat : Format :=
  .num 8 fun len => .count len ((Format.bytes len).andThen fun x => .given (∃ s, utf8 s = x))

def elemFormat (typeId : ℕ) : Format :=
  match typeId with
  | 0 | 1 | 7 => .bytes 1
  | 2 | 3 => .bytes 2
  | 4 | 5 | 6 => .bytes 4
  | 8 => stringFormat
  | 10 | 11 | 12 => .bytes 8
  | _ => .none

/-- Counts take `w` bytes. -/
def arrayFormat (w : ℕ) : Format :=
  .num 4 fun elemType => .num w fun n =>
    .count n ((elemFormat elemType).collect n fun _ => .bytes 0)

def valueFormat (w : ℕ) : Format :=
  .num 4 fun typeId => if typeId = 9 then arrayFormat w else elemFormat typeId

def pairFormat (w : ℕ) : Format := stringFormat.seq (valueFormat w)

/-- A name, the dimensions, and what is left of a tensor descriptor. -/
def tensorFormat (w : ℕ) : Format :=
  stringFormat.seq (.num 4 fun n =>
    .count n ((Format.bytes w).collect n fun _ => (Format.bytes 4).seq (.bytes 8)))

def alignmentKey : List UInt8 := encodeString 8 "general.alignment"

def zeroAlignmentPair : List UInt8 := alignmentKey ++ (leBytes 4 4 ++ leBytes 4 0)

/-- The last of the pairs that set the alignment sets it to zero. -/
def ZeroAligned : List (List UInt8) → Prop
  | [] => False
  | x :: xs => ZeroAligned xs ∨ (x = zeroAlignmentPair ∧ ∀ y ∈ xs, ¬ alignmentKey <+: y)

def listsFormat (w nTensors nKv : ℕ) : Format :=
  .count nKv ((pairFormat w).collect nKv fun pairs =>
    .count nTensors ((tensorFormat w).collect nTensors fun _ => .stopIf (ZeroAligned pairs)))

/-- Magic, version and the two counts, then pairs and tensors. -/
def headerFormat : Format :=
  .num 4 fun magic =>
    if magic ≠ GGUF_MAGIC.toNat then .none
    else .num 4 fun version =>
      if ¬ SUPPORTED_VERSIONS.contains (UInt32.ofNat version) then .none
      else
        let w := countWidth (UInt32.ofNat version)
        .num w fun nTensors => .num w fun nKv => listsFormat w nTensors nKv

/-! ## The readers follow them -/

section Numbers

variable {α : Type} {F : ℕ → Format}

theorem follows_readLe_bind (w : ℕ) {f : ℕ → Reader GgufError α}
    (hf : ∀ n < 256 ^ w, Follows (f n) (F n)) : Follows (readLe w >>= f) (.num w F) := by
  rw [readLe, bind_assoc]
  simp only [pure_bind]
  refine Follows.readExact_bind fun x hx => hf _ ?_
  rw [← hx]
  exact leNat_lt x

theorem follows_readU32_bind {f : UInt32 → Reader GgufError α}
    (hf : ∀ v, Follows (f v) (F v.toNat)) : Follows (readU32 >>= f) (.num 4 F) := by
  rw [readU32, bind_assoc]
  simp only [pure_bind]
  refine follows_readLe_bind 4 fun n hn => ?_
  have hv := hf (UInt32.ofNat n)
  rwa [toNat_ofNat_u32 hn] at hv

theorem follows_readU64_bind {f : UInt64 → Reader GgufError α}
    (hf : ∀ v, Follows (f v) (F v.toNat)) : Follows (readU64 >>= f) (.num 8 F) := by
  rw [readU64, bind_assoc]
  simp only [pure_bind]
  refine follows_readLe_bind 8 fun n hn => ?_
  have hv := hf (UInt64.ofNat n)
  rwa [toNat_ofNat_u64 hn] at hv

theorem follows_readCount_bind (version : UInt32) {f : UInt64 → Reader GgufError α}
    (hf : ∀ v, Follows (f v) (F v.toNat)) :
    Follows (readCount version >>= f) (.num (countWidth version) F) := by
  unfold readCount countWidth
  split
  · rw [bind_assoc]
    simp only [pure_bind]
    refine follows_readU32_bind fun v => ?_
    rw [← UInt32.toNat_toUInt64]
    exact hf v.toUInt64
  · exact follows_readU64_bind hf

theorem follows_readLe (w : ℕ) : Follows (readLe w) (.bytes w) := (Follows.readExact _ w).map _

theorem follows_readCount (version : UInt32) :
    Follows (readCount version) (.bytes (countWidth version)) := by
  unfold readCount countWidth
  split
  · exact ((follows_readLe 4).map _).map _
  · exact (follows_readLe 8).map _

end Numbers

theorem follows_checkUtf8 (buf : List UInt8) :
    Follows (checkUtf8 buf) (.given (∃ s, utf8 s = buf)) := by
  unfold checkUtf8
  cases h : fromUtf8 buf with
  | some s => exact (Follows.pure s).given_true ⟨s, fromUtf8_eq_some_iff.mp h⟩
  | none =>
    refine Follows.given_false _ ?_
    rintro ⟨s, rfl⟩
    simp at h

theorem follows_readGgufString : Follows (readGgufString strict) stringFormat := by
  refine follows_readU64_bind fun len => ?_
  refine Follows.count (Follows.readExact_bind fun buf _ => follows_checkUtf8 buf) ?_
  rintro _ ⟨x, y, rfl, hx, -⟩
  rw [List.length_append, hx]
  omega

theorem stringFormat_pos {x : List UInt8} (h : stringFormat.Item x) : 8 ≤ x.length := by
  obtain ⟨l, y, rfl, hl, -⟩ := h
  rw [List.length_append, hl]
  omega

theorem elemFormat_pos {typeId : ℕ} {x : List UInt8} (h : (elemFormat typeId).Item x) :
    0 < x.length := by
  unfold elemFormat at h
  split at h
  case h_9 => exact Nat.lt_of_lt_of_le (by decide) (stringFormat_pos h)
  case h_13 => exact absurd h id
  all_goals
    have hlen : x.length = _ := h
    omega

theorem elemFormat_eq_none {typeId : ℕ} (h : 12 < typeId ∨ typeId = 9) :
    elemFormat typeId = .none := by
  unfold elemFormat
  split <;> first | rfl | omega

theorem follows_readGgufValueByType (typeId : UInt32) :
    Follows (readGgufValueByType strict typeId) (elemFormat typeId.toNat) := by
  unfold readGgufValueByType
  generalize typeId.toNat = t
  split
  case h_1 | h_2 | h_8 => exact ((follows_readLe 1).map _).map _
  case h_3 | h_4 => exact ((follows_readLe 2).map _).map _
  case h_5 | h_6 | h_7 => exact ((follows_readLe 4).map _).map _
  case h_9 => exact follows_readGgufString.map _
  case h_10 | h_11 | h_12 => exact ((follows_readLe 8).map _).map _
  case h_13 =>
    have hnone : elemFormat t = .none := elemFormat_eq_none (by grind)
    rw [hnone]
    exact Follows.fail _

theorem follows_readGgufArray (version : UInt32) :
    Follows (readGgufArray strict version) (arrayFormat (countWidth version)) := by
  refine follows_readU32_bind fun elemType => follows_readCount_bind version fun n => ?_
  refine Follows.count ?_ fun x => Format.le_length_of_collect fun y => elemFormat_pos
  exact (follows_readGgufValueByType elemType).repeated_bind fun arr _ _ => Follows.pure _

theorem follows_readGgufValue (version : UInt32) :
    Follows (readGgufValue strict version) (valueFormat (countWidth version)) := by
  refine follows_readU32_bind fun typeId => ?_
  generalize htype : typeId.toNat = t
  split
  case h_1 | h_2 | h_8 => exact ((follows_readLe 1).map _).map _
  case h_3 | h_4 => exact ((follows_readLe 2).map _).map _
  case h_5 | h_6 | h_7 => exact ((follows_readLe 4).map _).map _
  case h_9 => exact follows_readGgufString.map _
  case h_10 => exact follows_readGgufArray version
  case h_11 | h_12 | h_13 => exact ((follows_readLe 8).map _).map _
  case h_14 =>
    have hnone : elemFormat t = .none := elemFormat_eq_none (by grind)
    rw [if_neg (by assumption), hnone]
    exact Follows.fail _

theorem follows_readKeyValue (version : UInt32) :
    Follows (readKeyValue strict version) (pairFormat (countWidth version)) :=
  follows_readGgufString.seq fun _ => (follows_readGgufValue version).map _

theorem follows_readTensorInfo (version : UInt32) :
    Follows (readTensorInfo strict version) (tensorFormat (countWidth version)) := by
  refine follows_readGgufString.seq fun name => follows_readU32_bind fun nDims => ?_
  refine Follows.count ?_ fun x => Format.le_length_of_collect fun y hy => ?_
  · refine (follows_readCount version).repeated_bind fun dims _ _ => ?_
    exact ((follows_readLe 4).map _).seq fun ggmlType => ((follows_readLe 8).map _).map _
  · have hlen : y.length = countWidth version := hy
    rw [hlen, countWidth]
    split <;> decide

/-! ## The last alignment -/

theorem eq_leBytes_of_readU32 {c c' : Cursor} {v : UInt32} (h : readU32 c = .ok (v, c')) :
    c.rest = leBytes 4 v.toNat ++ c'.rest := by
  obtain ⟨⟨n, c₁⟩, hn, hv⟩ := Outcome.bind_eq_ok.mp h
  cases hv
  obtain ⟨⟨b, c₂⟩, hb, hn⟩ := Outcome.bind_eq_ok.mp hn
  cases hn
  unfold readExact at hb
  split at hb
  · rename_i hlen
    cases hb
    have htake : (c.rest.take 4).length = 4 := by simp [hlen]
    have hlt := leNat_lt (c.rest.take 4)
    have hbytes := leBytes_leNat (c.rest.take 4)
    rw [htake] at hlt hbytes
    rw [toNat_ofNat_u32 hlt, hbytes, List.take_append_drop]
  · cases hb

/-- The bytes of a string are those of its encoding. -/
theorem exists_of_stringFormat {x : List UInt8} (h : stringFormat.Item x) :
    ∃ s, x = encodeString 8 s ∧ StringFits 8 s := by
  obtain ⟨l, y, rfl, hl, buf, z, rfl, hbuf, ⟨s, rfl⟩, rfl⟩ := h
  have hlt := leNat_lt l
  have hbytes := leBytes_leNat l
  have hl' : l.length = 8 := hl
  have hlen : (utf8 s).length = leNat l := hbuf
  rw [hl'] at hlt hbytes
  refine ⟨s, ?_, by rw [StringFits, hlen]; exact hlt⟩
  rw [encodeString, hlen, hbytes, List.append_nil]

theorem exists_of_readGgufString {c c' : Cursor} {s : String}
    (h : readGgufString strict c = .ok (s, c')) :
    c.rest = encodeString 8 s ++ c'.rest ∧ StringFits 8 s := by
  obtain ⟨x, hx, hitem⟩ := follows_readGgufString.ok c s c' h
  obtain ⟨t, rfl, hfits⟩ := exists_of_stringFormat hitem
  have hread := reads_readGgufString adequate_strict hfits c'.rest c.pos
  have hc : c = ⟨encodeString 8 t ++ c'.rest, c.pos⟩ := by rw [← hx]
  rw [← hc, h] at hread
  have hst : s = t := congrArg Prod.fst (Outcome.ok.inj hread)
  rw [hst]
  exact ⟨hx, hfits⟩

/-- No string's encoding begins another string's encoding. -/
theorem encodeString_prefix_inj {s t : String} {y : List UInt8} (hs : StringFits 8 s)
    (ht : StringFits 8 t) (h : encodeString 8 s <+: encodeString 8 t ++ y) : s = t := by
  obtain ⟨z, hz⟩ := h
  rw [encodeString, encodeString, List.append_assoc, List.append_assoc] at hz
  obtain ⟨hlen, hbody⟩ := List.append_inj hz (by simp)
  have hlen' : (utf8 s).length = (utf8 t).length := by
    rw [← leNat_leBytes hs, ← leNat_leBytes ht, hlen]
  exact utf8_injective (List.append_inj hbody hlen').1

/-- Two readings of the same bytes return the same value. -/
theorem eq_of_reads {α : Type} {p : Reader GgufError α} {x : List UInt8} {a b : α}
    {c c' : Cursor} (hp : Reads p x b) (h : p c = .ok (a, c')) {rest : List UInt8}
    (hx : c.rest = x ++ rest) : a = b := by
  have hread := hp rest c.pos
  have hc : c = ⟨x ++ rest, c.pos⟩ := by rw [← hx]
  rw [← hc, h] at hread
  exact congrArg Prod.fst (Outcome.ok.inj hread)

theorem readGgufValue_eq_zero_iff {version : UInt32} {c c' : Cursor} {v : GgufValue}
    {y : List UInt8} (h : readGgufValue strict version c = .ok (v, c'))
    (hy : c.rest = y ++ c'.rest) : v = .u32 0 ↔ y = leBytes 4 4 ++ leBytes 4 0 := by
  constructor
  · rintro rfl
    obtain ⟨⟨typeId, c₁⟩, htype, hv⟩ := Outcome.bind_eq_ok.mp h
    have hc := eq_leBytes_of_readU32 htype
    dsimp only at hv
    generalize typeId.toNat = t at hc hv
    split at hv
    case h_5 =>
      obtain ⟨⟨n, c₂⟩, hn, hv⟩ := Outcome.bind_eq_ok.mp hv
      cases hv
      rw [hy, eq_leBytes_of_readU32 hn, ← List.append_assoc] at hc
      exact List.append_cancel_right hc
    case h_10 =>
      obtain ⟨⟨_, _⟩, -, hv⟩ := Outcome.bind_eq_ok.mp hv
      obtain ⟨⟨_, _⟩, -, hv⟩ := Outcome.bind_eq_ok.mp hv
      obtain ⟨⟨_, _⟩, -, hv⟩ := Outcome.bind_eq_ok.mp hv
      obtain ⟨⟨_, _⟩, -, hv⟩ := Outcome.bind_eq_ok.mp hv
      cases hv
    case h_14 => cases hv
    all_goals
      obtain ⟨⟨_, _⟩, -, hv⟩ := Outcome.bind_eq_ok.mp hv
      cases hv
  · rintro rfl
    have hread : Reads (readGgufValue strict version) (leBytes 4 4 ++ leBytes 4 0) (.u32 0) :=
      (reads_readU32_ofNat (n := 4) (by decide)).bind ((reads_readU32 0).map GgufValue.u32)
    exact eq_of_reads hread h hy

/-- The key and the bytes of a pair. -/
structure PairBytes (kv : String × GgufValue) (x : List UInt8) : Prop where
  key : kv.1 = "general.alignment" ↔ alignmentKey <+: x
  zero : kv = ("general.alignment", .u32 0) ↔ x = zeroAlignmentPair

theorem fits_alignment : StringFits 8 "general.alignment" := by
  rw [StringFits]
  decide +kernel

theorem pairBytes_of_readKeyValue {version : UInt32} {c c' : Cursor}
    {kv : String × GgufValue} {x : List UInt8}
    (h : readKeyValue strict version c = .ok (kv, c')) (hx : c.rest = x ++ c'.rest) :
    PairBytes kv x := by
  obtain ⟨⟨key, c₁⟩, hkey, hrest⟩ := Outcome.bind_eq_ok.mp h
  obtain ⟨⟨v, c₂⟩, hv, hkv⟩ := Outcome.bind_eq_ok.mp hrest
  cases hkv
  dsimp only at hv hx ⊢
  obtain ⟨hc, hfits⟩ := exists_of_readGgufString hkey
  obtain ⟨y, hy, -⟩ := (follows_readGgufValue version).ok _ _ _ hv
  have hxy : x = encodeString 8 key ++ y := by
    rw [hx, hy, ← List.append_assoc] at hc
    exact List.append_cancel_right hc
  have hkeyBytes : key = "general.alignment" ↔ alignmentKey <+: x := by
    rw [hxy]
    constructor
    · rintro rfl
      exact List.prefix_append _ y
    · intro hprefix
      exact (encodeString_prefix_inj fits_alignment hfits hprefix).symm
  refine ⟨hkeyBytes, ?_⟩
  rw [Prod.mk.injEq, readGgufValue_eq_zero_iff hv hy]
  constructor
  · rintro ⟨rfl, rfl⟩
    exact hxy
  · intro hzero
    have hkey := hkeyBytes.mpr ⟨leBytes 4 4 ++ leBytes 4 0, hzero.symm⟩
    refine ⟨hkey, ?_⟩
    rw [hzero, hkey] at hxy
    exact (List.append_cancel_left hxy).symm

theorem get_insertAll_alignment {kvs : List (String × GgufValue)} {xs : List (List UInt8)}
    (h : List.Forall₂ PairBytes kvs xs) (m : Dict String GgufValue) :
    (m.insertAll kvs).get "general.alignment" = some (.u32 0) ↔
      ZeroAligned xs ∨
        ((∀ x ∈ xs, ¬ alignmentKey <+: x) ∧ m.get "general.alignment" = some (.u32 0)) := by
  induction h generalizing m with
  | nil => simp [ZeroAligned]
  | @cons kv x kvs xs hkv _ ih =>
    have hget : (m.insert kv.1 kv.2).get "general.alignment" = some (.u32 0) ↔
        x = zeroAlignmentPair ∨
          (¬ alignmentKey <+: x ∧ m.get "general.alignment" = some (.u32 0)) := by
      rw [Dict.get_insert, ← hkv.zero, ← hkv.key]
      by_cases hk : kv.1 = "general.alignment"
      · simp [hk, Prod.ext_iff]
      · simp [hk, Ne.symm hk, Prod.ext_iff]
    have hzero : x = zeroAlignmentPair → alignmentKey <+: x := by
      rintro rfl
      exact List.prefix_append _ _
    rw [Dict.insertAll_cons, ih, hget, ZeroAligned]
    simp only [List.forall_mem_cons]
    grind

theorem alignmentOf_eq_zero_iff_zeroAligned {kvs : List (String × GgufValue)}
    {xs : List (List UInt8)} (h : List.Forall₂ PairBytes kvs xs) :
    alignmentOf (Dict.empty.insertAll kvs) = 0 ↔ ZeroAligned xs := by
  rw [alignmentOf_eq_zero_iff, get_insertAll_alignment h]
  simp

/-! ## The whole header -/

theorem follows_parseLists (version : UInt32) (nTensors nKv : UInt64) :
    Follows (parseLists strict version nTensors nKv)
      (listsFormat (countWidth version) nTensors.toNat nKv.toNat) := by
  have hpair : ∀ x, (pairFormat (countWidth version)).Item x → 0 < x.length := by
    rintro _ ⟨x, y, rfl, hx, -⟩
    have hpos := stringFormat_pos hx
    rw [List.length_append]
    omega
  have htensor : ∀ x, (tensorFormat (countWidth version)).Item x → 0 < x.length := by
    rintro _ ⟨x, y, rfl, hx, -⟩
    have hpos := stringFormat_pos hx
    rw [List.length_append]
    omega
  refine Follows.count ?_ fun x => Format.le_length_of_collect hpair
  refine (follows_readKeyValue version).repeated_bind fun pairs xs hpairs => ?_
  refine Follows.count ?_ fun x => Format.le_length_of_collect htensor
  refine (follows_readTensorInfo version).repeated_bind fun tensors _ _ => ?_
  refine Follows.position fun pos => Follows.stopIf ?_ _
  apply alignmentOf_eq_zero_iff_zeroAligned
  refine hpairs.imp ?_
  rintro kv x ⟨c, c', hread, hx⟩
  exact pairBytes_of_readKeyValue hread hx

theorem follows_parseHeader : Follows (parseHeader strict) headerFormat := by
  refine follows_readU32_bind fun magic => ?_
  have hmagic : magic ≠ GGUF_MAGIC ↔ magic.toNat ≠ GGUF_MAGIC.toNat := by
    rw [ne_eq, ne_eq, UInt32.toNat_inj]
  simp only [hmagic]
  split
  · exact Follows.fail _
  · refine follows_readU32_bind fun version => ?_
    rw [UInt32.ofNat_toNat]
    split
    · exact Follows.fail _
    · refine follows_readCount_bind version fun nTensors => ?_
      refine follows_readCount_bind version fun nKv => ?_
      exact follows_parseLists version nTensors nKv

/-! ## Any host -/

section Hosts

variable {serves : ℕ → ℕ → Bool} (hserves : Adequate serves)
include hserves

theorem within_readGgufString : Within (readGgufString serves) (readGgufString strict) :=
  (Within.refl _).bind fun _ => (Within.reserve hserves _).bind fun _ => Within.refl _

theorem within_readGgufValueByType (typeId : UInt32) :
    Within (readGgufValueByType serves typeId) (readGgufValueByType strict typeId) := by
  unfold readGgufValueByType
  split
  case h_9 => exact (within_readGgufString hserves).bind fun _ => Within.refl _
  all_goals exact Within.refl _

theorem within_readGgufArray (version : UInt32) :
    Within (readGgufArray serves version) (readGgufArray strict version) :=
  (Within.refl _).bind fun elemType => (Within.refl _).bind fun n =>
    (Within.reserve hserves _).bind fun _ =>
      ((within_readGgufValueByType hserves elemType).repeated n.toNat).bind fun _ => Within.refl _

theorem within_readGgufValue (version : UInt32) :
    Within (readGgufValue serves version) (readGgufValue strict version) := by
  refine (Within.refl _).bind fun typeId => ?_
  split
  case h_9 => exact (within_readGgufString hserves).bind fun _ => Within.refl _
  case h_10 => exact within_readGgufArray hserves version
  all_goals exact Within.refl _

theorem within_readKeyValue (version : UInt32) :
    Within (readKeyValue serves version) (readKeyValue strict version) :=
  (within_readGgufString hserves).bind fun _ =>
    (within_readGgufValue hserves version).bind fun _ => Within.refl _

theorem within_readTensorInfo (version : UInt32) :
    Within (readTensorInfo serves version) (readTensorInfo strict version) :=
  (within_readGgufString hserves).bind fun _ => (Within.refl _).bind fun _ =>
    (Within.reserve hserves _).bind fun _ => Within.refl _

theorem within_parseLists (version : UInt32) (nTensors nKv : UInt64) :
    Within (parseLists serves version nTensors nKv) (parseLists strict version nTensors nKv) :=
  (Within.reserve hserves _).bind fun _ =>
    ((within_readKeyValue hserves version).repeated nKv.toNat).bind fun _ =>
      (Within.reserve hserves _).bind fun _ =>
        ((within_readTensorInfo hserves version).repeated nTensors.toNat).bind fun _ =>
          Within.refl _

theorem within_parseHeader : Within (parseHeader serves) (parseHeader strict) := by
  refine (Within.refl _).bind fun magic => ?_
  split
  · exact Within.refl _
  · refine (Within.refl _).bind fun version => ?_
    split
    · exact Within.refl _
    · exact (Within.refl _).bind fun nTensors => (Within.refl _).bind fun nKv =>
        within_parseLists hserves version nTensors nKv

end Hosts

/-! ## Exactly when parsing is safe -/

/-- On every host that serves the bytes left, the reader returns or reports, exactly on the
files whose counts are no more than the bytes after them, and whose alignment is not zero. -/
theorem parse_safe_iff (file : List UInt8) :
    (∀ serves, Adequate serves → GgufHeader.parse serves file ≠ .panic) ↔
      (∀ n l, headerFormat.Asks file n l → n ≤ l) ∧ ¬ headerFormat.Stops file := by
  have hparse : ∀ serves, GgufHeader.parse serves file = .panic ↔
      parseHeader serves ⟨file, 0⟩ = .panic := by
    intro serves
    unfold GgufHeader.parse
    cases parseHeader serves ⟨file, 0⟩ <;> simp
  have hbreaks : ¬ headerFormat.Breaks file ↔
      (∀ n l, headerFormat.Asks file n l → n ≤ l) ∧ ¬ headerFormat.Stops file := by
    simp only [Format.Breaks, not_or, not_exists, not_and, Nat.not_lt]
  rw [← hbreaks, ← follows_parseHeader.panic ⟨file, 0⟩]
  constructor
  · intro h
    rw [← hparse]
    exact h strict adequate_strict
  · intro h serves hserves
    rw [ne_eq, hparse, within_parseHeader hserves _ h]
    exact h

/-- A file of 24 bytes that announces 2^63 pairs. -/
def manyPairs : List UInt8 :=
  leBytes 4 GGUF_MAGIC.toNat ++ (leBytes 4 3 ++ (leBytes 8 0 ++ leBytes 8 (2 ^ 63)))

/-- The reader asks for all of them. -/
theorem not_parse_safe : ¬ ∀ (serves : ℕ → ℕ → Bool) (file : List UInt8),
    Adequate serves → GgufHeader.parse serves file ≠ .panic := by
  intro h
  exact h strict manyPairs adequate_strict (by rfl)

end QuantumFlow.Gguf
