import Mathlib

/-!
# File names

`db/filename.cc` names the files of a database `dbname/...`: numbered files `%06llu.log`,
`.sst`, `.ldb`, `.dbtmp` and `MANIFEST-%06llu`, and the fixed names `CURRENT`, `LOCK`, `LOG`,
`LOG.old`. `ParseFileName` reads a name back with `ConsumeDecimalNumber` of `util/logging.cc`,
which refuses a number that does not fit a `uint64_t`. `DeleteObsoleteFiles` decides what to
delete from this parse.

Names are lists of characters; every character the code tests is ASCII. The names
`ParseFileName` accepts are exactly those of `OwnedName`, the fixed names and a nonempty run of
decimal digits in the right place, with a value below `2 ^ 64`, and the number it returns is
that value (`parseFileName_isSome_iff`, `parseFileName_eq_some_iff`); so every name the makers
write parses back, after `dbname/`, to its number and type (`parseFileName_of_formatNumber`),
for every number, `0` included, which the makers' assertions exclude.
-/

namespace PebblesDB.Db.FileName

/-- `FileType`. -/
inductive FileType where
  | kLogFile
  | kDBLockFile
  | kTableFile
  | kDescriptorFile
  | kCurrentFile
  | kTempFile
  | kInfoLogFile
  deriving DecidableEq, Repr

/-! ## Making names -/

/-- `snprintf(buf, sizeof(buf), "%06llu", number)`: the decimal digits of `number`, padded with
zeros to six. -/
def formatNumber (number : UInt64) : List Char :=
  let digits := Nat.toDigits 10 number.toNat
  List.replicate (6 - digits.length) '0' ++ digits

/-- `MakeFileName(name, number, suffix)`: `name/%06llu.suffix`. -/
def makeFileName (name : List Char) (number : UInt64) (suffix : List Char) : List Char :=
  name ++ '/' :: (formatNumber number ++ '.' :: suffix)

/-- `LogFileName`, which asserts `number > 0`. -/
def logFileName (name : List Char) (number : UInt64) : List Char :=
  makeFileName name number "log".toList

/-- `TableFileName`, which asserts `number > 0`. -/
def tableFileName (name : List Char) (number : UInt64) : List Char :=
  makeFileName name number "sst".toList

/-- `LDBTableFileName`, which asserts `number > 0`. -/
def ldbTableFileName (name : List Char) (number : UInt64) : List Char :=
  makeFileName name number "ldb".toList

/-- `DescriptorFileName`, which asserts `number > 0`: `dbname/MANIFEST-%06llu`. -/
def descriptorFileName (dbname : List Char) (number : UInt64) : List Char :=
  dbname ++ "/MANIFEST-".toList ++ formatNumber number

/-- `CurrentFileName`. -/
def currentFileName (dbname : List Char) : List Char :=
  dbname ++ "/CURRENT".toList

/-- `LockFileName`. -/
def lockFileName (dbname : List Char) : List Char :=
  dbname ++ "/LOCK".toList

/-- `TempFileName`, which asserts `number > 0`. -/
def tempFileName (dbname : List Char) (number : UInt64) : List Char :=
  makeFileName dbname number "dbtmp".toList

/-- `InfoLogFileName`. -/
def infoLogFileName (dbname : List Char) : List Char :=
  dbname ++ "/LOG".toList

/-- `OldInfoLogFileName`. -/
def oldInfoLogFileName (dbname : List Char) : List Char :=
  dbname ++ "/LOG.old".toList

/-! ## Parsing names -/

/-- `c >= '0' && c <= '9'`: a decimal digit, as `ConsumeDecimalNumber` tests it. -/
def IsDigit (c : Char) : Prop := c ≥ '0' ∧ c ≤ '9'

instance : DecidablePred IsDigit := fun c ↦ inferInstanceAs (Decidable (c ≥ '0' ∧ c ≤ '9'))

/-- The loop of `ConsumeDecimalNumber`: the digits read and the value `v` so far, and the input
left; `none` when the next digit would take `v` past `UINT64_MAX`. The check keeps `v` a
`uint64_t` value, so it is a natural number here. -/
def consumeDecimalLoop (digits v : ℕ) : List Char → Option (ℕ × ℕ × List Char)
  | c :: rest =>
    if IsDigit c then
      let delta := c.toNat - '0'.toNat
      if v > (2 ^ 64 - 1) / 10 ∨ (v = (2 ^ 64 - 1) / 10 ∧ delta > (2 ^ 64 - 1) % 10) then none
      else consumeDecimalLoop (digits + 1) (v * 10 + delta) rest
    else some (digits, v, c :: rest)
  | [] => some (digits, v, [])

/-- `ConsumeDecimalNumber(&in, &val)`: the value and the input left, when at least one digit
was read and none overflowed. -/
def consumeDecimalNumber (input : List Char) : Option (UInt64 × List Char) :=
  match consumeDecimalLoop 0 0 input with
  | some (digits, v, rest) => if digits > 0 then some (v.toUInt64, rest) else none
  | none => none

/-- `ParseFileName`: the number and type of an owned name, `none` for any other name. -/
def parseFileName (fname : List Char) : Option (UInt64 × FileType) :=
  let rest := fname
  if rest = "CURRENT".toList then some (0, .kCurrentFile)
  else if rest = "LOCK".toList then some (0, .kDBLockFile)
  else if rest = "LOG".toList ∨ rest = "LOG.old".toList then some (0, .kInfoLogFile)
  else if "MANIFEST-".toList <+: rest then
    match consumeDecimalNumber (rest.drop "MANIFEST-".length) with
    | some (num, rest) => if rest = [] then some (num, .kDescriptorFile) else none
    | none => none
  else
    match consumeDecimalNumber rest with
    | some (num, suffix) =>
      if suffix = ".log".toList then some (num, .kLogFile)
      else if suffix = ".sst".toList ∨ suffix = ".ldb".toList then some (num, .kTableFile)
      else if suffix = ".dbtmp".toList then some (num, .kTempFile)
      else none
    | none => none

/-! ## The names that parse -/

/-- `[0-9]+`. -/
def IsDecimal (ds : List Char) : Prop := ds ≠ [] ∧ ∀ c ∈ ds, IsDigit c

/-- The names of a database's own files, with the number and type each stands for: the fixed
names with number `0`, `MANIFEST-[0-9]+`, and `[0-9]+` followed by `.log`, `.sst`, `.ldb` or
`.dbtmp`, with the decimal value of the digits. -/
inductive OwnedName : List Char → ℕ → FileType → Prop where
  | current : OwnedName "CURRENT".toList 0 .kCurrentFile
  | lock : OwnedName "LOCK".toList 0 .kDBLockFile
  | log : OwnedName "LOG".toList 0 .kInfoLogFile
  | logOld : OwnedName "LOG.old".toList 0 .kInfoLogFile
  | descriptor {ds : List Char} : IsDecimal ds →
      OwnedName ("MANIFEST-".toList ++ ds) (Nat.ofDigitChars 10 ds 0) .kDescriptorFile
  | logFile {ds : List Char} : IsDecimal ds →
      OwnedName (ds ++ ".log".toList) (Nat.ofDigitChars 10 ds 0) .kLogFile
  | tableFile {ds : List Char} : IsDecimal ds →
      OwnedName (ds ++ ".sst".toList) (Nat.ofDigitChars 10 ds 0) .kTableFile
  | ldbTableFile {ds : List Char} : IsDecimal ds →
      OwnedName (ds ++ ".ldb".toList) (Nat.ofDigitChars 10 ds 0) .kTableFile
  | tempFile {ds : List Char} : IsDecimal ds →
      OwnedName (ds ++ ".dbtmp".toList) (Nat.ofDigitChars 10 ds 0) .kTempFile

theorem toNat_of_isDigit {c : Char} (hc : IsDigit c) : 48 ≤ c.toNat ∧ c.toNat ≤ 57 := hc

/-- The value of digits after `init` is at least `init`. -/
theorem le_ofDigitChars (l : List Char) (init : ℕ) : init ≤ Nat.ofDigitChars 10 l init := by
  rw [Nat.ofDigitChars_eq_ofDigitChars_zero]
  calc init ≤ 10 ^ l.length * init := Nat.le_mul_of_pos_left init (Nat.pow_pos (by decide))
    _ ≤ 10 ^ l.length * init + Nat.ofDigitChars 10 l 0 := Nat.le_add_right _ _

/-- The check of `ConsumeDecimalNumber` refuses a digit exactly when it takes the value past
`UINT64_MAX`. -/
theorem overflow_iff {v delta : ℕ} (hdelta : delta ≤ 9) :
    (v > (2 ^ 64 - 1) / 10 ∨ (v = (2 ^ 64 - 1) / 10 ∧ delta > (2 ^ 64 - 1) % 10)) ↔
      2 ^ 64 ≤ v * 10 + delta := by
  omega

/-- **The loop reads a run of digits**: with no digit after it, to its value, unless that
passes `UINT64_MAX`. -/
theorem consumeDecimalLoop_append {ds rest : List Char} (hds : ∀ c ∈ ds, IsDigit c)
    (hrest : ∀ c ∈ rest.head?, ¬ IsDigit c) :
    ∀ {digits v : ℕ}, v < 2 ^ 64 →
      consumeDecimalLoop digits v (ds ++ rest) =
        if Nat.ofDigitChars 10 ds v < 2 ^ 64 then
          some (digits + ds.length, Nat.ofDigitChars 10 ds v, rest)
        else none := by
  induction ds with
  | nil =>
    intro digits v hv
    rw [Nat.ofDigitChars_nil, if_pos hv, List.nil_append, List.length_nil, Nat.add_zero]
    cases rest with
    | nil => rfl
    | cons c rest =>
      rw [consumeDecimalLoop, if_neg (hrest c rfl)]
  | cons c ds ih =>
    intro digits v hv
    have hc := toNat_of_isDigit (hds c List.mem_cons_self)
    have hstep : Nat.ofDigitChars 10 (c :: ds) v =
        Nat.ofDigitChars 10 ds (v * 10 + (c.toNat - 48)) := by
      rw [Nat.ofDigitChars_cons, Nat.mul_comm]
      rfl
    rw [List.cons_append, consumeDecimalLoop, if_pos (hds c List.mem_cons_self), hstep]
    dsimp only
    rw [show '0'.toNat = 48 from rfl]
    by_cases hover : 2 ^ 64 ≤ v * 10 + (c.toNat - 48)
    · -- this digit overflows, and so does the whole run
      rw [if_pos ((overflow_iff (by omega)).2 hover), if_neg]
      exact Nat.not_lt.2 (Nat.le_trans hover (le_ofDigitChars _ _))
    · rw [if_neg (mt (overflow_iff (by omega)).1 hover),
        ih (fun c hc ↦ hds c (List.mem_cons_of_mem _ hc)) (Nat.lt_of_not_le hover),
        List.length_cons, Nat.add_right_comm, Nat.add_assoc]

/-- What a loop that ends well has read: a run of digits, up to a character that is not one. -/
theorem consumeDecimalLoop_eq_some :
    ∀ {input : List Char} {digits v digits' v' : ℕ} {rest : List Char},
      consumeDecimalLoop digits v input = some (digits', v', rest) →
        ∃ ds, input = ds ++ rest ∧ (∀ c ∈ ds, IsDigit c) ∧
          (∀ c ∈ rest.head?, ¬ IsDigit c) ∧
          digits' = digits + ds.length ∧ v' = Nat.ofDigitChars 10 ds v
  | [], digits, v, digits', v', rest, h => by
    simp only [consumeDecimalLoop, Option.some.injEq, Prod.mk.injEq] at h
    obtain ⟨rfl, rfl, rfl⟩ := h
    exact ⟨[], rfl, by simp, by simp, rfl, rfl⟩
  | c :: input, digits, v, digits', v', rest, h => by
    rw [consumeDecimalLoop] at h
    split at h
    · -- a digit that does not overflow, then the rest of the run
      rename_i hc
      dsimp only at h
      split at h
      · cases h
      · obtain ⟨ds, rfl, hds, hrest, rfl, rfl⟩ := consumeDecimalLoop_eq_some h
        refine ⟨c :: ds, rfl, ?_, hrest, by rw [List.length_cons]; omega, ?_⟩
        · intro x hx
          rcases List.mem_cons.1 hx with rfl | hx
          · exact hc
          · exact hds x hx
        · rw [Nat.ofDigitChars_cons, Nat.mul_comm]
    · -- the first character that is not a digit ends the run
      rename_i hc
      simp only [Option.some.injEq, Prod.mk.injEq] at h
      obtain ⟨rfl, rfl, rfl⟩ := h
      exact ⟨[], rfl, by simp, by simpa using hc, by simp, rfl⟩

/-- **`ConsumeDecimalNumber` reads a run of digits** up to a character that is not one, when
its value fits a `uint64_t`. -/
theorem consumeDecimalNumber_append {ds rest : List Char} (hds : IsDecimal ds)
    (hrest : ∀ c ∈ rest.head?, ¬ IsDigit c) (hv : Nat.ofDigitChars 10 ds 0 < 2 ^ 64) :
    consumeDecimalNumber (ds ++ rest) = some ((Nat.ofDigitChars 10 ds 0).toUInt64, rest) := by
  have hlen : 0 < ds.length := List.length_pos_of_ne_nil hds.1
  rw [consumeDecimalNumber, consumeDecimalLoop_append hds.2 hrest (by decide), if_pos hv]
  dsimp only
  rw [if_pos (by omega)]

/-- What `ConsumeDecimalNumber` accepts: a run of digits whose value fits a `uint64_t`, up to
a character that is not a digit. -/
theorem consumeDecimalNumber_eq_some {input rest : List Char} {num : UInt64}
    (h : consumeDecimalNumber input = some (num, rest)) :
    ∃ ds, input = ds ++ rest ∧ IsDecimal ds ∧ (∀ c ∈ rest.head?, ¬ IsDigit c) ∧
      Nat.ofDigitChars 10 ds 0 < 2 ^ 64 ∧ num.toNat = Nat.ofDigitChars 10 ds 0 := by
  unfold consumeDecimalNumber at h
  split at h
  · rename_i digits v rest' hloop
    split at h
    · rename_i hdigits
      simp only [Option.some.injEq, Prod.mk.injEq] at h
      obtain ⟨rfl, rfl⟩ := h
      obtain ⟨ds, rfl, hds, hrest, rfl, rfl⟩ := consumeDecimalLoop_eq_some hloop
      have hne : ds ≠ [] := by
        rintro rfl
        simp at hdigits
      -- the value fits, or the loop would have stopped
      have hfit : Nat.ofDigitChars 10 ds 0 < 2 ^ 64 := by
        by_contra hbig
        rw [consumeDecimalLoop_append hds hrest (by decide), if_neg hbig] at hloop
        cases hloop
      refine ⟨ds, rfl, ⟨hne, hds⟩, hrest, hfit, ?_⟩
      rw [Nat.toUInt64_eq, UInt64.toNat_ofNat', Nat.mod_eq_of_lt hfit]
    · cases h
  · cases h

/-! ## `ParseFileName` -/

/-- A name that starts with a digit is none of the fixed names and no `MANIFEST-` name, so
`ParseFileName` reads it as a number and a suffix. -/
theorem parseFileName_of_isDigit {d : Char} (hd : IsDigit d) (s : List Char) :
    parseFileName (d :: s) =
      match consumeDecimalNumber (d :: s) with
      | some (num, suffix) =>
        if suffix = ".log".toList then some (num, .kLogFile)
        else if suffix = ".sst".toList ∨ suffix = ".ldb".toList then some (num, .kTableFile)
        else if suffix = ".dbtmp".toList then some (num, .kTempFile)
        else none
      | none => none := by
  -- each fixed name starts with a letter
  have hC : d :: s ≠ "CURRENT".toList := fun h ↦ absurd (List.cons.inj h).1 (by
    rintro rfl
    exact absurd hd (by decide))
  have hL : d :: s ≠ "LOCK".toList := fun h ↦ absurd (List.cons.inj h).1 (by
    rintro rfl
    exact absurd hd (by decide))
  have hG : ¬ (d :: s = "LOG".toList ∨ d :: s = "LOG.old".toList) := by
    rintro (h | h) <;> exact absurd (List.cons.inj h).1 (by
      rintro rfl
      exact absurd hd (by decide))
  have hM : ¬ "MANIFEST-".toList <+: d :: s := by
    rintro ⟨t, h⟩
    exact absurd (List.cons.inj h).1.symm (by
      rintro rfl
      exact absurd hd (by decide))
  unfold parseFileName
  rw [if_neg hC, if_neg hL, if_neg hG, if_neg hM]

/-- The dot of a suffix ends the run of digits before it. -/
theorem dot_not_isDigit (s : List Char) : ∀ c ∈ ('.' :: s).head?, ¬ IsDigit c := by
  rintro c hc
  rw [List.head?_cons, Option.mem_def, Option.some.injEq] at hc
  rw [← hc]
  decide

/-- A run of digits, then a suffix that starts with no digit: the suffix decides. -/
theorem parseFileName_digits_append {ds suffix : List Char} (hds : IsDecimal ds)
    (hsuffix : ∀ c ∈ suffix.head?, ¬ IsDigit c) (hn : Nat.ofDigitChars 10 ds 0 < 2 ^ 64) :
    parseFileName (ds ++ suffix) =
      let num := (Nat.ofDigitChars 10 ds 0).toUInt64
      if suffix = ".log".toList then some (num, .kLogFile)
      else if suffix = ".sst".toList ∨ suffix = ".ldb".toList then some (num, .kTableFile)
      else if suffix = ".dbtmp".toList then some (num, .kTempFile)
      else none := by
  obtain ⟨d, ds', rfl⟩ := List.exists_cons_of_ne_nil hds.1
  rw [List.cons_append, parseFileName_of_isDigit (hds.2 d List.mem_cons_self), ← List.cons_append,
    consumeDecimalNumber_append hds hsuffix hn]

/-- **An owned name parses** to its number and type, when its number fits a `uint64_t`. -/
theorem parseFileName_of_ownedName {s : List Char} {n : ℕ} {type : FileType}
    (h : OwnedName s n type) (hn : n < 2 ^ 64) : parseFileName s = some (n.toUInt64, type) := by
  cases h with
  | current => rfl
  | lock => rfl
  | log => rfl
  | logOld => rfl
  | @descriptor ds hds =>
    -- past `MANIFEST-`, the digits and nothing else
    have hdrop : ("MANIFEST-".toList ++ ds).drop "MANIFEST-".length = ds := List.drop_left' rfl
    unfold parseFileName
    rw [if_neg (by simp), if_neg (by simp), if_neg (by simp), if_pos (List.prefix_append _ _),
      hdrop, ← List.append_nil ds, consumeDecimalNumber_append hds (by simp) hn]
    simp
  | @logFile ds hds =>
    rw [@parseFileName_digits_append ds ".log".toList hds (dot_not_isDigit _) hn]
    simp
  | @tableFile ds hds =>
    rw [@parseFileName_digits_append ds ".sst".toList hds (dot_not_isDigit _) hn]
    simp
  | @ldbTableFile ds hds =>
    rw [@parseFileName_digits_append ds ".ldb".toList hds (dot_not_isDigit _) hn]
    simp
  | @tempFile ds hds =>
    rw [@parseFileName_digits_append ds ".dbtmp".toList hds (dot_not_isDigit _) hn]
    simp

/-- **Only owned names parse**, each to the value of its digits and its type. -/
theorem ownedName_of_parseFileName {s : List Char} {num : UInt64} {type : FileType}
    (h : parseFileName s = some (num, type)) : OwnedName s num.toNat type := by
  unfold parseFileName at h
  dsimp only at h
  split_ifs at h with hC hL hG hM
  · simp only [Option.some.injEq, Prod.mk.injEq] at h
    obtain ⟨rfl, rfl⟩ := h
    rw [hC]
    exact .current
  · simp only [Option.some.injEq, Prod.mk.injEq] at h
    obtain ⟨rfl, rfl⟩ := h
    rw [hL]
    exact .lock
  · simp only [Option.some.injEq, Prod.mk.injEq] at h
    obtain ⟨rfl, rfl⟩ := h
    rcases hG with rfl | rfl
    · exact .log
    · exact .logOld
  · -- `MANIFEST-`, then digits to the end
    obtain ⟨t, rfl⟩ := hM
    have hdrop : ("MANIFEST-".toList ++ t).drop "MANIFEST-".length = t := List.drop_left' rfl
    rw [hdrop] at h
    split at h
    · rename_i num' rest hcons
      split_ifs at h with hrest
      simp only [Option.some.injEq, Prod.mk.injEq] at h
      obtain ⟨rfl, rfl⟩ := h
      obtain ⟨ds, rfl, hds, -, -, hnum⟩ := consumeDecimalNumber_eq_some hcons
      rw [hrest, List.append_nil, hnum]
      exact .descriptor hds
    · cases h
  · -- digits, then the suffix of a numbered file
    split at h
    · rename_i num' suffix hcons
      obtain ⟨ds, rfl, hds, -, -, hnum⟩ := consumeDecimalNumber_eq_some hcons
      split_ifs at h with h1 h2 h3 <;> simp only [Option.some.injEq, Prod.mk.injEq] at h <;>
        obtain ⟨rfl, rfl⟩ := h <;> rw [hnum]
      · rw [h1]
        exact .logFile hds
      · rcases h2 with rfl | rfl
        · exact .tableFile hds
        · exact .ldbTableFile hds
      · rw [h3]
        exact .tempFile hds
    · cases h

/-- **`ParseFileName` accepts exactly the owned names** whose number fits a `uint64_t`. -/
theorem parseFileName_isSome_iff (s : List Char) :
    (parseFileName s).isSome ↔ ∃ n type, OwnedName s n type ∧ n < 2 ^ 64 := by
  constructor
  · intro h
    obtain ⟨⟨num, type⟩, hparse⟩ := Option.isSome_iff_exists.1 h
    exact ⟨num.toNat, type, ownedName_of_parseFileName hparse, num.toNat_lt⟩
  · rintro ⟨n, type, hown, hn⟩
    rw [parseFileName_of_ownedName hown hn]
    rfl

/-- **`ParseFileName` returns the value of the name's digits**, and only for an owned name. -/
theorem parseFileName_eq_some_iff (s : List Char) (num : UInt64) (type : FileType) :
    parseFileName s = some (num, type) ↔ OwnedName s num.toNat type := by
  constructor
  · exact ownedName_of_parseFileName
  · intro hown
    rw [parseFileName_of_ownedName hown num.toNat_lt, Nat.toUInt64_eq, UInt64.ofNat_toNat]

/-! ## Reading back what the makers write -/

theorem isDigit_of_isDigit_eq_true {c : Char} (h : c.isDigit = true) : IsDigit c := by
  simp only [Char.isDigit, Bool.and_eq_true, decide_eq_true_eq] at h
  exact h

/-- `%06llu` writes a run of digits. -/
theorem formatNumber_isDecimal (n : UInt64) : IsDecimal (formatNumber n) := by
  refine ⟨by simp [formatNumber, Nat.toDigits_ne_nil], fun c hc ↦ ?_⟩
  rcases List.mem_append.1 hc with hc | hc
  · rw [List.eq_of_mem_replicate hc]
    decide
  · exact isDigit_of_isDigit_eq_true (Nat.isDigit_of_mem_toDigits (by decide) (Nat.le_refl 10) hc)

/-- The zeros of the padding add nothing to the value. -/
theorem ofDigitChars_formatNumber (n : UInt64) :
    Nat.ofDigitChars 10 (formatNumber n) 0 = n.toNat := by
  rw [formatNumber, Nat.ofDigitChars_append, Nat.ofDigitChars_replicate_zero, Nat.mul_zero,
    Nat.ofDigitChars_ten_toDigits]

/-- A name whose digits `%06llu` wrote parses to the number written. -/
theorem parseFileName_of_formatNumber {s : List Char} {n : UInt64} {type : FileType}
    (h : OwnedName s (Nat.ofDigitChars 10 (formatNumber n) 0) type) :
    parseFileName s = some (n, type) := by
  rw [ofDigitChars_formatNumber] at h
  exact (parseFileName_eq_some_iff s n type).2 h

/-- The part of `dbname/name` after `dbname/`. -/
theorem drop_dir (dbname name : List Char) :
    (dbname ++ '/' :: name).drop (dbname.length + 1) = name := by
  simp

/-- What `DescriptorFileName` writes after `dbname/`. -/
theorem drop_descriptorFileName (dbname : List Char) (n : UInt64) :
    (descriptorFileName dbname n).drop (dbname.length + 1) =
      "MANIFEST-".toList ++ formatNumber n := by
  rw [descriptorFileName, List.append_assoc]
  exact drop_dir dbname _

/-- **File names parse back, and `ParseFileName` accepts exactly the owned names**: the part of
each name after `dbname/` parses to its number and type, for every number; a name parses when
it is an owned name with a number below `2 ^ 64`; and it parses to a number and type exactly
when it is owned with that number's value. -/
theorem fileNames_parse_back :
    (∀ (dbname : List Char) (n : UInt64),
      parseFileName ((logFileName dbname n).drop (dbname.length + 1)) = some (n, .kLogFile) ∧
      parseFileName ((tableFileName dbname n).drop (dbname.length + 1)) =
        some (n, .kTableFile) ∧
      parseFileName ((ldbTableFileName dbname n).drop (dbname.length + 1)) =
        some (n, .kTableFile) ∧
      parseFileName ((descriptorFileName dbname n).drop (dbname.length + 1)) =
        some (n, .kDescriptorFile) ∧
      parseFileName ((tempFileName dbname n).drop (dbname.length + 1)) =
        some (n, .kTempFile)) ∧
    (∀ dbname : List Char,
      parseFileName ((currentFileName dbname).drop (dbname.length + 1)) =
        some (0, .kCurrentFile) ∧
      parseFileName ((lockFileName dbname).drop (dbname.length + 1)) =
        some (0, .kDBLockFile) ∧
      parseFileName ((infoLogFileName dbname).drop (dbname.length + 1)) =
        some (0, .kInfoLogFile) ∧
      parseFileName ((oldInfoLogFileName dbname).drop (dbname.length + 1)) =
        some (0, .kInfoLogFile)) ∧
    (∀ s : List Char,
      (parseFileName s).isSome ↔ ∃ n type, OwnedName s n type ∧ n < 2 ^ 64) ∧
    (∀ s num type, parseFileName s = some (num, type) ↔ OwnedName s num.toNat type) := by
  refine ⟨fun dbname n ↦ ⟨?_, ?_, ?_, ?_, ?_⟩, fun dbname ↦ ⟨?_, ?_, ?_, ?_⟩,
    parseFileName_isSome_iff, parseFileName_eq_some_iff⟩
  -- the numbered names: `%06llu` and a suffix, read back through `OwnedName`
  · rw [logFileName, makeFileName, drop_dir]
    exact parseFileName_of_formatNumber (.logFile (formatNumber_isDecimal n))
  · rw [tableFileName, makeFileName, drop_dir]
    exact parseFileName_of_formatNumber (.tableFile (formatNumber_isDecimal n))
  · rw [ldbTableFileName, makeFileName, drop_dir]
    exact parseFileName_of_formatNumber (.ldbTableFile (formatNumber_isDecimal n))
  · rw [drop_descriptorFileName]
    exact parseFileName_of_formatNumber (.descriptor (formatNumber_isDecimal n))
  · rw [tempFileName, makeFileName, drop_dir]
    exact parseFileName_of_formatNumber (.tempFile (formatNumber_isDecimal n))
  -- the fixed names
  · rw [currentFileName, show "/CURRENT".toList = '/' :: "CURRENT".toList from rfl, drop_dir]
    rfl
  · rw [lockFileName, show "/LOCK".toList = '/' :: "LOCK".toList from rfl, drop_dir]
    rfl
  · rw [infoLogFileName, show "/LOG".toList = '/' :: "LOG".toList from rfl, drop_dir]
    rfl
  · rw [oldInfoLogFileName, show "/LOG.old".toList = '/' :: "LOG.old".toList from rfl, drop_dir]
    rfl

end PebblesDB.Db.FileName
