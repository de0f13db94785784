import Mathlib.Data.List.Sort
import TinyLsm.Directory
import TinyLsm.Library.Numeral

/-!
# File names

The name of the SSTable with a number, the parser that finds the number in a name, and the part of
the constructor of `Database` that goes through the names of a directory, after `database.cpp`.

A generated name fits its buffer and is parsed back, so that a directory of generated names is
opened in the order of the numbers (`filename_roundTrip`).  The parser also accepts digits that are
not padded as the generated ones are, and fails on a number that needs more than 64 bits; the
tables are reopened under the names they were found by exactly when no such name is there
(`discovery_exact_iff`).
-/

namespace TinyLsm

/-! ### The names -/

/-- `kPrefix` of `ParseSSTableNumber`, and the beginning of the format of `SSTableFilename`. -/
def kPrefix : Bytes :=
  ['s', 's', 't', '-'].map Char.toUInt8

/-- `kSuffix`. -/
def kSuffix : Bytes :=
  ['.', 's', 's', 't'].map Char.toUInt8

/-- The character of a decimal digit. -/
def digitChar (d : ℕ) : UInt8 :=
  UInt8.ofNat (48 + d)

/-- `std::isdigit`. -/
def isDigit (c : UInt8) : Bool :=
  48 ≤ c && c ≤ 57

/-- The digit a character stands for. -/
def digitValue (c : UInt8) : ℕ :=
  c.toNat - 48

/-- What `std::snprintf` writes to a buffer, and `std::string` reads of it. -/
def snprintf (size : ℕ) (text : Bytes) : Bytes :=
  text.take (size - 1)

/-- The text of the format `"sst-%06llu.sst"`. -/
def formattedName (number : UInt64) : Bytes :=
  kPrefix ++ (Numeral.numeral 10 6 number.toNat).map digitChar ++ kSuffix

/-- `SSTableFilename`. -/
def sstableFilename (number : UInt64) : Bytes :=
  snprintf 32 (formattedName number)

/-- `std::out_of_range`, thrown by `std::stoull`. -/
inductive OutOfRange where
  | outOfRange
deriving DecidableEq, Repr

/-- `std::stoull`, on a string of digits. -/
def stoull (digits : Bytes) : Except OutOfRange UInt64 :=
  if Numeral.value 10 (digits.map digitValue) < 2 ^ 64 then
    .ok (UInt64.ofNat (Numeral.value 10 (digits.map digitValue)))
  else .error .outOfRange

/-- `digits` of `ParseSSTableNumber`. -/
def digitsOf (filename : Bytes) : Bytes :=
  (filename.drop kPrefix.length).take (filename.length - kPrefix.length - kSuffix.length)

/-- `all_digits` of `ParseSSTableNumber`. -/
def allDigits (digits : Bytes) : Bool :=
  !digits.isEmpty && digits.all isDigit

/-- `ParseSSTableNumber`. -/
def parseSSTableNumber (filename : Bytes) : Except OutOfRange (Option UInt64) :=
  if filename.length ≤ kPrefix.length + kSuffix.length then .ok none
  else if filename.take kPrefix.length ≠ kPrefix then .ok none
  else if (filename.drop (filename.length - kSuffix.length)).take kSuffix.length ≠ kSuffix then
    .ok none
  else if !allDigits (digitsOf filename) then .ok none
  else (stoull (digitsOf filename)).map some

/-! ### Going through a directory -/

/-- The numbers the constructor finds in the names of a directory, sorted. -/
def discoverNumbers (names : List Bytes) : Except OutOfRange (List UInt64) := do
  let numbers ← names.mapM parseSSTableNumber
  .ok ((numbers.filterMap id).insertionSort (· ≤ ·))

/-- The names under which it opens them. -/
def openedNames (names : List Bytes) : Except OutOfRange (List Bytes) := do
  .ok ((← discoverNumbers names).map sstableFilename)

/-! ### Digits -/

theorem digitValue_digitChar {d : ℕ} (hd : d < 10) :
  digitValue (digitChar d) = d
  := by
  rw [digitValue, digitChar, UInt8.toNat_ofNat_of_lt' (by rw [UInt8.size]; omega)]
  omega

theorem isDigit_digitChar {d : ℕ} (hd : d < 10) :
  isDigit (digitChar d) = true
  := by
  rw [isDigit, Bool.and_eq_true, decide_eq_true_iff, decide_eq_true_iff, UInt8.le_iff_toNat_le,
    UInt8.le_iff_toNat_le, digitChar, UInt8.toNat_ofNat_of_lt' (by rw [UInt8.size]; omega)]
  constructor
  · change 48 ≤ 48 + d
    omega
  · change 48 + d ≤ 57
    omega

theorem bounds_of_isDigit {c : UInt8} (hc : isDigit c = true) :
  48 ≤ c.toNat ∧ c.toNat ≤ 57
  := by
  rw [isDigit, Bool.and_eq_true, decide_eq_true_iff, decide_eq_true_iff, UInt8.le_iff_toNat_le,
    UInt8.le_iff_toNat_le] at hc
  exact hc

theorem digitValue_lt {c : UInt8} (hc : isDigit c = true) :
  digitValue c < 10
  := by
  have hbounds := bounds_of_isDigit hc
  rw [digitValue]
  omega

theorem digitChar_digitValue {c : UInt8} (hc : isDigit c = true) :
  digitChar (digitValue c) = c
  := by
  have hbounds := bounds_of_isDigit hc
  apply UInt8.toNat_inj.mp
  rw [digitChar, digitValue, UInt8.toNat_ofNat_of_lt' (by rw [UInt8.size]; omega)]
  omega

theorem isDigit_of_mem {digits : Bytes} (h : allDigits digits = true) :
  ∀ c ∈ digits, isDigit c = true
  := by
  rw [allDigits, Bool.and_eq_true] at h
  exact List.all_eq_true.mp h.2

/-- The values of digits are digits in base ten. -/
theorem values_lt {digits : Bytes} (h : allDigits digits = true) :
  ∀ d ∈ digits.map digitValue, d < 10
  := by
  intro d hd
  obtain ⟨c, hc, rfl⟩ := List.mem_map.mp hd
  exact digitValue_lt (isDigit_of_mem h c hc)

theorem map_digitChar_map_digitValue {digits : Bytes} (h : allDigits digits = true) :
  (digits.map digitValue).map digitChar = digits
  := by
  rw [List.map_map]
  apply (List.map_congr_left _).trans (List.map_id _)
  exact fun c hc => digitChar_digitValue (isDigit_of_mem h c hc)

theorem map_digitValue_map_digitChar {digits : List ℕ} (h : ∀ d ∈ digits, d < 10) :
  (digits.map digitChar).map digitValue = digits
  := by
  rw [List.map_map]
  apply (List.map_congr_left _).trans (List.map_id _)
  exact fun d hd => digitValue_digitChar (h d hd)

/-! ### Parsing -/

/-- What the parser makes of digits between the prefix and the suffix. -/
theorem parseSSTableNumber_append {digits : Bytes} (h : allDigits digits = true) :
  parseSSTableNumber (kPrefix ++ digits ++ kSuffix) = (stoull digits).map some
  := by
  have hpos : 0 < digits.length := by
    rw [allDigits, Bool.and_eq_true] at h
    cases digits with
    | nil => simp at h
    | cons c cs => simp
  have hlength : (kPrefix ++ digits ++ kSuffix).length = 4 + digits.length + 4 := by
    rw [List.length_append, List.length_append]
    rfl
  have hdigits : digitsOf (kPrefix ++ digits ++ kSuffix) = digits := by
    rw [digitsOf, hlength, List.append_assoc, List.drop_left]
    apply List.take_left'
    change digits.length = 4 + digits.length + 4 - 4 - 4
    omega
  rw [parseSSTableNumber, hdigits, if_neg, if_neg, if_neg, if_neg]
  · simp [h]
  · rw [not_not, hlength]
    have hdrop : (kPrefix ++ digits ++ kSuffix).drop (4 + digits.length + 4 - kSuffix.length)
        = kSuffix := by
      apply List.drop_left'
      rw [List.length_append]
      change 4 + digits.length = 4 + digits.length + 4 - 4
      omega
    rw [hdrop]
    rfl
  · rw [not_not, List.append_assoc, List.take_left]
  · rw [hlength]
    change ¬ 4 + digits.length + 4 ≤ 4 + 4
    omega

/-- A name the parser does not skip consists of the prefix, digits and the suffix. -/
theorem parseSSTableNumber_cases (filename : Bytes) :
  parseSSTableNumber filename = .ok none
    ∨ ∃ digits, allDigits digits = true ∧ filename = kPrefix ++ digits ++ kSuffix
  := by
  rw [parseSSTableNumber]
  split_ifs with hshort hfront hsuffix hdigits
  · exact Or.inl rfl
  · exact Or.inl rfl
  · exact Or.inl rfl
  · exact Or.inl rfl
  · right
    refine ⟨digitsOf filename, by simpa using hdigits, ?_⟩
    rw [not_not] at hfront hsuffix
    have hlength : filename.length - kSuffix.length
        = kPrefix.length + (filename.length - kPrefix.length - kSuffix.length) := by
      omega
    have hrest : filename.drop (filename.length - kSuffix.length) = kSuffix := by
      rw [List.take_of_length_le] at hsuffix
      · exact hsuffix
      · rw [List.length_drop]
        omega
    calc filename
        = filename.take kPrefix.length ++ filename.drop kPrefix.length :=
          (List.take_append_drop _ _).symm
      _ = kPrefix ++ (digitsOf filename
            ++ (filename.drop kPrefix.length).drop
              (filename.length - kPrefix.length - kSuffix.length)) := by
          rw [hfront, digitsOf, List.take_append_drop]
      _ = kPrefix ++ digitsOf filename ++ kSuffix := by
          rw [List.drop_drop, ← hlength, hrest, List.append_assoc]

theorem stoull_eq_ok {digits : Bytes} {number : UInt64} :
  stoull digits = .ok number ↔ Numeral.value 10 (digits.map digitValue) = number.toNat
  := by
  rw [stoull]
  split_ifs with hlt
  · rw [Except.ok.injEq, ← UInt64.toNat_inj, UInt64.toNat_ofNat_of_lt' hlt]
  · apply iff_of_false (by simp)
    have hnumber := number.toNat_lt
    omega

/-! ### Generated names -/

/-- The digits of a generated name. -/
theorem allDigits_numeral (number : UInt64) :
  allDigits ((Numeral.numeral 10 6 number.toNat).map digitChar) = true
  := by
  rw [allDigits, Bool.and_eq_true, List.all_eq_true]
  constructor
  · rw [Bool.not_eq_true', List.isEmpty_eq_false_iff, ← List.length_pos_iff, List.length_map,
      Numeral.length_numeral]
    omega
  · intro c hc
    obtain ⟨d, hd, rfl⟩ := List.mem_map.mp hc
    exact isDigit_digitChar (Numeral.lt_of_mem_numeral (by decide) hd)

/-- The longest number has twenty digits. -/
theorem length_formattedName (number : UInt64) :
  (formattedName number).length < 32
  := by
  have hdigits : (Numeral.numeral 10 6 number.toNat).length ≤ 20 := by
    apply Numeral.length_numeral_le (by decide) (by decide)
    exact number.toNat_lt.trans (by decide)
  rw [formattedName, List.length_append, List.length_append, List.length_map]
  change 4 + _ + 4 < 32
  omega

theorem sstableFilename_eq (number : UInt64) :
  sstableFilename number = formattedName number
  := by
  have hlength := length_formattedName number
  apply List.take_of_length_le
  omega

theorem parse_sstableFilename (number : UInt64) :
  parseSSTableNumber (sstableFilename number) = .ok (some number)
  := by
  have hvalue : stoull ((Numeral.numeral 10 6 number.toNat).map digitChar) = .ok number := by
    rw [stoull_eq_ok, map_digitValue_map_digitChar, Numeral.value_numeral]
    exact fun d hd => Numeral.lt_of_mem_numeral (by decide) hd
  rw [sstableFilename_eq, formattedName, parseSSTableNumber_append (allDigits_numeral number),
    hvalue]
  rfl

theorem sstableFilename_injective :
  Function.Injective sstableFilename
  := by
  intro m n h
  have hparse := parse_sstableFilename m
  rw [h, parse_sstableFilename, Except.ok.injEq, Option.some.injEq] at hparse
  exact hparse.symm

/-! ### Directories of names -/

/-- The name is that of an SSTable for the parser. -/
def recognised (filename : Bytes) : Bool :=
  match parseSSTableNumber filename with
  | .ok (some _) => true
  | _ => false

theorem recognised_iff {filename : Bytes} :
  recognised filename = true ↔ ∃ number, parseSSTableNumber filename = .ok (some number)
  := by
  rw [recognised]
  cases parseSSTableNumber filename with
  | error e => simp
  | ok number =>
      cases number with
      | none => simp
      | some number => simp

/-- What the constructor finds are the numbers of the names, one for each, in ascending order. -/
theorem discoverNumbers_eq_ok {names : List Bytes} {numbers : List UInt64} :
  discoverNumbers names = .ok numbers
    ↔ ∃ parsed, List.Forall₂ (fun f number => parseSSTableNumber f = .ok number) names parsed
      ∧ (parsed.filterMap id).insertionSort (· ≤ ·) = numbers
  := by
  rw [discoverNumbers]
  cases hparsed : names.mapM parseSSTableNumber with
  | error e =>
      apply iff_of_false (by simp [bind, Except.bind])
      rintro ⟨parsed, hforall, -⟩
      rw [mapM_eq_ok.mpr hforall] at hparsed
      simp at hparsed
  | ok parsed =>
      simp only [bind, Except.bind, Except.ok.injEq]
      constructor
      · rintro rfl
        exact ⟨parsed, mapM_eq_ok.mp hparsed, rfl⟩
      · rintro ⟨parsed', hforall, rfl⟩
        have hok := mapM_eq_ok.mpr hforall
        rw [hparsed] at hok
        rw [Except.ok.inj hok]

theorem openedNames_eq_ok {names opened : List Bytes} :
  openedNames names = .ok opened
    ↔ ∃ numbers, discoverNumbers names = .ok numbers ∧ numbers.map sstableFilename = opened
  := by
  rw [openedNames]
  cases discoverNumbers names with
  | error e => simp [bind, Except.bind]
  | ok numbers => simp [bind, Except.bind]

/-- A strictly ascending list of numbers is what sorting any arrangement of it gives. -/
theorem insertionSort_eq_of_perm {numbers sorted : List UInt64} (hperm : numbers.Perm sorted)
    (hsorted : sorted.Pairwise (· < ·)) :
  numbers.insertionSort (· ≤ ·) = sorted
  := by
  have hsort := List.pairwise_insertionSort (· ≤ ·) numbers
  have hperm' := (List.perm_insertionSort (· ≤ ·) numbers).trans hperm
  exact hperm'.eq_of_pairwise' hsort (hsorted.imp UInt64.le_of_lt)

/-- The names of numbered tables among names the parser skips give the numbers. -/
theorem discoverNumbers_of_perm {numbers : List UInt64} (hsorted : numbers.Pairwise (· < ·))
    {others listing : List Bytes} (hothers : ∀ f ∈ others, parseSSTableNumber f = .ok none)
    (hlisting : listing.Perm (numbers.map sstableFilename ++ others)) :
  discoverNumbers listing = .ok numbers
  := by
  have hparsed : List.Forall₂ (fun f number => parseSSTableNumber f = .ok number)
      (numbers.map sstableFilename ++ others)
      (numbers.map some ++ List.replicate others.length none) := by
    apply List.rel_append
    · rw [List.forall₂_map_left_iff, List.forall₂_map_right_iff, List.forall₂_same]
      exact fun number _ => parse_sstableFilename number
    · clear hlisting
      induction others with
      | nil => exact .nil
      | cons f others ih =>
          refine .cons (hothers f List.mem_cons_self) (ih ?_)
          exact fun g hg => hothers g (List.mem_cons_of_mem f hg)
  obtain ⟨parsed, hperm, hforall⟩ := List.perm_comp_forall₂ hlisting hparsed
  apply discoverNumbers_eq_ok.mpr
  use parsed, hperm
  apply insertionSort_eq_of_perm _ hsorted
  apply (hforall.filterMap id).trans
  rw [List.filterMap_append, List.filterMap_map, List.filterMap_replicate_of_none rfl,
    List.append_nil]
  exact List.Perm.of_eq (List.filterMap_some)

/-- A generated name fits its buffer and is parsed back to its number; so distinct numbers have
distinct names, and a directory of generated names, whatever else is in it and in whatever order it
is listed, gives the numbers in ascending order. -/
theorem filename_roundTrip {numbers : List UInt64} (hsorted : numbers.Pairwise (· < ·))
    {others listing : List Bytes} (hothers : ∀ f ∈ others, parseSSTableNumber f = .ok none)
    (hlisting : listing.Perm (numbers.map sstableFilename ++ others)) :
  (∀ number, (formattedName number).length < 32 ∧ sstableFilename number = formattedName number
    ∧ parseSSTableNumber (sstableFilename number) = .ok (some number))
  ∧ Function.Injective sstableFilename
  ∧ discoverNumbers listing = .ok numbers
  := by
  refine ⟨fun number => ⟨?_, ?_, ?_⟩, ?_, ?_⟩
  · exact length_formattedName number
  · exact sstableFilename_eq number
  · exact parse_sstableFilename number
  · exact sstableFilename_injective
  · exact discoverNumbers_of_perm hsorted hothers hlisting

/-- The names of the tables 999999 and 1000000, in the order in which strings are sorted, and a
name that is no table's. -/
theorem filename_roundTrip_padding :
  discoverNumbers [sstableFilename 1000000, sstableFilename 999999, [119]] = .ok [999999, 1000000]
  := (@filename_roundTrip [999999, 1000000] (by decide) [[119]] _ (by decide +kernel)
    (List.Perm.swap _ _ _)).2.2

/-! ### The files of a database directory -/

/-- `".tmp"`, which `WriteSSTable` adds to the name of the table it writes. -/
def kTmp : Bytes :=
  ['.', 't', 'm', 'p'].map Char.toUInt8

/-- The name of a file in the directory. -/
def FileName.render : FileName → Bytes
  | walLog => ['w', 'a', 'l', '.', 'l', 'o', 'g'].map Char.toUInt8
  | sst number => sstableFilename (UInt64.ofNat number)
  | tmp number => sstableFilename (UInt64.ofNat number) ++ kTmp

/-- A temporary file is no table. -/
theorem parse_append_kTmp (filename : Bytes) :
  parseSSTableNumber (filename ++ kTmp) = .ok none
  := by
  obtain hnone | ⟨digits, -, heq⟩ := parseSSTableNumber_cases (filename ++ kTmp)
  · exact hnone
  · have hsuffix := (List.append_inj' heq rfl).2
    exact absurd hsuffix (by decide +kernel)

/-- The files that are not tables. -/
def otherFiles (entries : List (FileName × Bytes)) : List FileName :=
  entries.filterMap (fun
    | (.sst _, _) => none
    | (name, _) => some name)

theorem parse_otherFiles {entries : List (FileName × Bytes)} :
  ∀ f ∈ (otherFiles entries).map FileName.render, parseSSTableNumber f = .ok none
  := by
  intro f hf
  obtain ⟨name, hname, rfl⟩ := List.mem_map.mp hf
  obtain ⟨⟨name', c⟩, -, heq⟩ := List.mem_filterMap.mp hname
  cases name' with
  | walLog =>
      simp only [Option.some.injEq] at heq
      obtain rfl := heq
      decide +kernel
  | sst number => simp at heq
  | tmp number =>
      simp only [Option.some.injEq] at heq
      obtain rfl := heq
      apply parse_append_kTmp

/-- The names in a directory are those of its tables and those of the other files. -/
theorem perm_render (disk : DbDisk) :
  (disk.entries.map (fun e => e.1.render)).Perm
    (((sstFiles disk).map (fun file => UInt64.ofNat file.1)).map sstableFilename
      ++ (otherFiles disk.entries).map FileName.render)
  := by
  rw [sstFiles]
  induction disk.entries with
  | nil => exact .nil
  | cons e entries ih =>
      obtain ⟨name, c⟩ := e
      cases name with
      | walLog => exact (ih.cons _).trans List.perm_middle.symm
      | sst number => exact ih.cons _
      | tmp number => exact (ih.cons _).trans List.perm_middle.symm

/-- The constructor finds the tables of a directory by their names, in whatever order these are
listed. -/
theorem discoverNumbers_render {disk : DbDisk} (hlt : ∀ file ∈ sstFiles disk, file.1 < 2 ^ 64)
    {listing : List Bytes} (hlisting : listing.Perm (disk.entries.map (fun e => e.1.render))) :
  discoverNumbers listing = .ok ((sstFiles disk).map (fun file => UInt64.ofNat file.1))
  := by
  apply discoverNumbers_of_perm _ parse_otherFiles (hlisting.trans (perm_render disk))
  rw [List.pairwise_map]
  apply (sorted_sstFiles disk).imp_of_mem
  intro file file' hfile hfile' hle
  rw [UInt64.lt_iff_toNat_lt, UInt64.toNat_ofNat_of_lt' (hlt file hfile),
    UInt64.toNat_ofNat_of_lt' (hlt file' hfile')]
  exact hle

/-! ### Names the program does not generate -/

/-- The parser does not fail on the name, and what it returns is the number of this name. -/
def NameFaithful (filename : Bytes) : Prop :=
  (∃ number?, parseSSTableNumber filename = .ok number?)
    ∧ ∀ number, parseSSTableNumber filename = .ok (some number) →
      sstableFilename number = filename

/-- The constructor opens each recognised file under the name it was found by, and nothing else. -/
def ReopensEach (names : List Bytes) : Prop :=
  ∃ opened, openedNames names = .ok opened ∧ opened.Perm (names.filter recognised)

/-- The prefix, digits and the suffix, but the digits are too few, have a zero too many in front, or
stand for a number of more than 64 bits. -/
def StrayName (filename : Bytes) : Prop :=
  ∃ digits, allDigits digits = true ∧ filename = kPrefix ++ digits ++ kSuffix
    ∧ ¬ (Numeral.Canonical 6 (digits.map digitValue)
      ∧ Numeral.value 10 (digits.map digitValue) < 2 ^ 64)

/-- The digits of the generated name for the number of some digits are these digits if they are
canonical. -/
theorem sstableFilename_eq_append_iff {digits : Bytes} (h : allDigits digits = true)
    {number : UInt64} (hnumber : stoull digits = .ok number) :
  sstableFilename number = kPrefix ++ digits ++ kSuffix
    ↔ Numeral.Canonical 6 (digits.map digitValue)
  := by
  rw [← Numeral.numeral_value_iff (b := 10) (by decide) (values_lt h), stoull_eq_ok.mp hnumber,
    sstableFilename_eq, formattedName, List.append_left_inj, List.append_right_inj]
  constructor
  · intro hmap
    rw [← hmap, map_digitValue_map_digitChar]
    exact fun d hd => Numeral.lt_of_mem_numeral (by decide) hd
  · intro hnumeral
    rw [hnumeral, map_digitChar_map_digitValue h]

/-- The names of digits that are reopened as they are. -/
theorem nameFaithful_append_iff {digits : Bytes} (h : allDigits digits = true) :
  NameFaithful (kPrefix ++ digits ++ kSuffix)
    ↔ Numeral.Canonical 6 (digits.map digitValue)
      ∧ Numeral.value 10 (digits.map digitValue) < 2 ^ 64
  := by
  rw [NameFaithful, parseSSTableNumber_append h]
  cases hnumber : stoull digits with
  | error e =>
      apply iff_of_false
      · rintro ⟨⟨number, hok⟩, -⟩
        simp [Except.map] at hok
      · rintro ⟨-, hlt⟩
        rw [stoull, if_pos hlt] at hnumber
        simp at hnumber
  | ok number =>
      have hvalue := stoull_eq_ok.mp hnumber
      have hlt := number.toNat_lt
      rw [← sstableFilename_eq_append_iff h hnumber, hvalue]
      simp [Except.map, hlt]

/-- A name is read back as it is unless it is a stray one. -/
theorem nameFaithful_iff (filename : Bytes) :
  NameFaithful filename ↔ ¬ StrayName filename
  := by
  by_cases hname : ∃ digits, allDigits digits = true ∧ filename = kPrefix ++ digits ++ kSuffix
  · obtain ⟨digits, hdigits, rfl⟩ := hname
    rw [nameFaithful_append_iff hdigits, StrayName]
    constructor
    · rintro hcanonical ⟨digits', -, heq, hstray⟩
      rw [List.append_left_inj, List.append_right_inj] at heq
      exact hstray (heq ▸ hcanonical)
    · intro hnot
      by_contra hstray
      exact hnot ⟨digits, hdigits, rfl, hstray⟩
  · obtain hnone | hdigits := parseSSTableNumber_cases filename
    · apply iff_of_true
      · use ⟨none, hnone⟩
        intro number hsome
        rw [hnone] at hsome
        simp at hsome
      · rintro ⟨digits, hdigits, heq, -⟩
        exact hname ⟨digits, hdigits, heq⟩
    · exact absurd hdigits hname

/-- The numbers parsed from faithful names are rendered as the names they come from. -/
theorem map_filterMap_of_faithful {names : List Bytes} {parsed : List (Option UInt64)}
    (hforall : List.Forall₂ (fun f number => parseSSTableNumber f = .ok number) names parsed)
    (hfaithful : ∀ f ∈ names, NameFaithful f) :
  (parsed.filterMap id).map sstableFilename = names.filter recognised
  := by
  induction hforall with
  | nil => rfl
  | @cons f number names parsed hparse _ ih =>
      have hrest := ih (fun g hg => hfaithful g (List.mem_cons_of_mem f hg))
      cases number with
      | none =>
          rw [List.filterMap_cons_none rfl, hrest, List.filter_cons_of_neg]
          rw [recognised_iff, hparse]
          simp
      | some number =>
          have hid : id (some number) = some number := rfl
          rw [List.filterMap_cons_some hid, List.map_cons, hrest, List.filter_cons_of_pos,
            (hfaithful f List.mem_cons_self).2 number hparse]
          exact recognised_iff.mpr ⟨number, hparse⟩

theorem reopensEach_iff (names : List Bytes) :
  ReopensEach names ↔ ∀ f ∈ names, NameFaithful f
  := by
  constructor
  · rintro ⟨opened, hopened, hperm⟩ f hf
    obtain ⟨numbers, hnumbers, rfl⟩ := openedNames_eq_ok.mp hopened
    obtain ⟨parsed, hforall, -⟩ := discoverNumbers_eq_ok.mp hnumbers
    obtain ⟨number?, hparse⟩ := exists_forall₂_iff.mp ⟨parsed, hforall⟩ f hf
    use ⟨number?, hparse⟩
    intro number hnumber
    -- The name was opened, so it is the generated name of some number.
    have hmem : f ∈ names.filter recognised :=
      List.mem_filter.mpr ⟨hf, recognised_iff.mpr ⟨number, hnumber⟩⟩
    obtain ⟨number', -, rfl⟩ := List.mem_map.mp (hperm.mem_iff.mpr hmem)
    rw [parse_sstableFilename, Except.ok.injEq, Option.some.injEq] at hnumber
    rw [hnumber]
  · intro hfaithful
    obtain ⟨parsed, hforall⟩ := exists_forall₂_iff.mpr (fun f hf => (hfaithful f hf).1)
    refine ⟨_, openedNames_eq_ok.mpr ⟨_, discoverNumbers_eq_ok.mpr ⟨parsed, hforall, rfl⟩, rfl⟩, ?_⟩
    rw [← map_filterMap_of_faithful hforall hfaithful]
    exact (List.perm_insertionSort _ _).map sstableFilename

/-- A name is parsed without failure, and its number rendered as this name, exactly when it is not a
stray one; and the constructor reopens each table of a directory under its own name exactly when no
name in it is stray. -/
theorem discovery_exact_iff (filename : Bytes) (names : List Bytes) :
  (NameFaithful filename ↔ ¬ StrayName filename)
    ∧ (ReopensEach names ↔ ∀ f ∈ names, ¬ StrayName f)
  := by
  constructor
  · exact nameFaithful_iff filename
  · rw [reopensEach_iff]
    exact forall₂_congr (fun f _ => nameFaithful_iff f)

/-- The name `sst-7.sst`. -/
def shortName : Bytes :=
  kPrefix ++ [55] ++ kSuffix

theorem not_discovery_exact :
  ¬ ((∀ filename, NameFaithful filename) ∧ ∀ names, ReopensEach names)
  := by
  rintro ⟨hfaithful, -⟩
  have hname := (hfaithful shortName).2 7 (by decide +kernel)
  exact absurd hname (by decide +kernel)

end TinyLsm
