import Mathlib.Data.List.TakeWhile
import OptionSchema.Raw.Descriptor
/-!
# What is read as a range

A range is read in two stages: its layout, with digits of any script, and then its numbers, with
ASCII digits alone and within 64 bits. Together these read exactly the texts that write a range. The
text of every range is one of them, so reading gives back its ends.
-/
namespace OptionSchema

section Characters

variable {c : Char}

theorem Text.isDecimalDigit_of_isDigit (h : c.isDigit = true) : Text.isDecimalDigit c = true := by
  have bounds : 48 ≤ c.toNat ∧ c.toNat ≤ 57 := by
    simpa [Char.isDigit, UInt32.le_iff_toNat_le] using h
  have first : (0x30, 0x39) ∈ Text.decimalDigitRanges := List.mem_cons_self
  exact List.any_eq_true.mpr ⟨_, first, by simpa using bounds⟩

theorem Text.isBlank_of_isDecimalDigit (h : Text.isDecimalDigit c = true) :
    Text.isBlank c = false := by
  have apart : ∀ blank ∈ Text.blankRanges, ∀ digit ∈ Text.decimalDigitRanges,
      blank.2 < digit.1 ∨ digit.2 < blank.1 := by decide
  by_contra hblank
  obtain ⟨digit, hdigit, within⟩ := List.any_eq_true.mp h
  obtain ⟨blank, hblank, within'⟩ := List.any_eq_true.mp (Bool.of_not_eq_false hblank)
  simp only [Bool.and_eq_true, decide_eq_true_eq] at within within'
  rcases apart blank hblank digit hdigit with below | above
  · omega
  · omega

end Characters

namespace Raw

def Blank (text : List Char) : Prop := ∀ c ∈ text, Text.isBlank c = true

/-- Some digits of any script, perhaps after a sign. -/
structure Numeral.Decimal (numeral : Numeral) : Prop where
  digits : ∀ digit ∈ numeral.digits, Text.isDecimalDigit digit = true
  some : numeral.digits ≠ []

/-- Some ASCII digits, perhaps after a sign. -/
structure Numeral.Plain (numeral : Numeral) : Prop where
  digits : ∀ digit ∈ numeral.digits, digit.isDigit = true
  some : numeral.digits ≠ []

theorem Numeral.Plain.decimal {numeral : Numeral} (plain : numeral.Plain) : numeral.Decimal :=
  ⟨fun digit hdigit => Text.isDecimalDigit_of_isDigit (plain.digits digit hdigit), plain.some⟩

def Numeral.chars (numeral : Numeral) : List Char :=
  if numeral.negative then '-' :: numeral.digits else numeral.digits

/-- The text goes from one numeral to another: two dots between them, and white space anywhere
around. -/
inductive Spans (first last : Numeral) : List Char → Prop where
  | intro {before afterFirst beforeLast after : List Char} (hbefore : Blank before)
      (hafterFirst : Blank afterFirst) (hbeforeLast : Blank beforeLast) (hafter : Blank after) :
      Spans first last (before ++ (first.chars ++ (afterFirst ++
        '.' :: '.' :: (beforeLast ++ (last.chars ++ after)))))

section Layout

variable {numeral first last : Numeral} {text rest : List Char}

theorem exists_blank_skipBlanks (text : List Char) :
    ∃ blank, Blank blank ∧ text = blank ++ skipBlanks text :=
  ⟨text.takeWhile Text.isBlank, fun _ => List.mem_takeWhile_imp,
    List.takeWhile_append_dropWhile.symm⟩

theorem skipBlanks_append (blank : Blank text) (rest : List Char) :
    skipBlanks (text ++ rest) = skipBlanks rest := List.dropWhile_append_of_pos blank

theorem skipBlanks_chars (decimal : numeral.Decimal) (rest : List Char) :
    skipBlanks (numeral.chars ++ rest) = numeral.chars ++ rest := by
  obtain ⟨negative, digits⟩ := numeral
  cases negative with
  | true => rfl
  | false =>
    obtain ⟨digit, digits, rfl⟩ := List.exists_cons_of_ne_nil decimal.some
    have visible := Text.isBlank_of_isDecimalDigit (decimal.digits digit List.mem_cons_self)
    simp [Numeral.chars, skipBlanks, visible]

/-- Digits end where white space or what follows it begins. -/
theorem isDecimalDigit_head?_append (blank : Blank text) (rest : List Char)
    (ends : ∀ c ∈ rest.head?, Text.isDecimalDigit c = false) :
    ∀ c ∈ (text ++ rest).head?, Text.isDecimalDigit c = false := by
  cases text with
  | nil => exact ends
  | cons head text =>
    rintro c ⟨⟩
    by_contra digit
    have visible := Text.isBlank_of_isDecimalDigit (Bool.of_not_eq_false digit)
    rw [blank head List.mem_cons_self] at visible
    cases visible

theorem splitNumeral?_chars (decimal : numeral.Decimal)
    (ends : ∀ c ∈ rest.head?, Text.isDecimalDigit c = false) :
    splitNumeral? (numeral.chars ++ rest) = some (numeral, rest) := by
  have taken : (numeral.digits ++ rest).takeWhile Text.isDecimalDigit = numeral.digits := by
    rw [List.takeWhile_append_of_pos decimal.digits]
    cases rest with
    | nil => simp
    | cons c rest => simp [ends c rfl]
  have dropped : (numeral.digits ++ rest).dropWhile Text.isDecimalDigit = rest := by
    rw [List.dropWhile_append_of_pos decimal.digits]
    cases rest with
    | nil => rfl
    | cons c rest => simp [ends c rfl]
  obtain ⟨negative, digits⟩ := numeral
  cases negative with
  | true => simp [splitNumeral?, Numeral.chars, taken, dropped, decimal.some]
  | false =>
    have unsigned : digits.head? ≠ some '-' := fun head =>
      absurd (decimal.digits '-' (List.mem_of_head? head)) (by decide)
    simp [splitNumeral?, Numeral.chars, taken, dropped, decimal.some, unsigned]

theorem splitNumeral?_eq_some (h : splitNumeral? text = some (numeral, rest)) :
    numeral.Decimal ∧ text = numeral.chars ++ rest := by
  have digits : ∀ {negative : Bool} {unsigned : List Char},
      (if (unsigned.takeWhile Text.isDecimalDigit).isEmpty then none
        else some (Numeral.mk negative (unsigned.takeWhile Text.isDecimalDigit),
          unsigned.dropWhile Text.isDecimalDigit)) = some (numeral, rest) →
      numeral.negative = negative ∧ numeral.Decimal ∧ unsigned = numeral.digits ++ rest := by
    intro negative unsigned h
    split at h
    · cases h
    · rename_i nonempty
      obtain ⟨rfl, rfl⟩ := Prod.mk.inj (Option.some.inj h)
      have some : unsigned.takeWhile Text.isDecimalDigit ≠ [] :=
        fun none => nonempty (List.isEmpty_iff.mpr none)
      exact ⟨rfl, ⟨fun _ => List.mem_takeWhile_imp, some⟩,
        List.takeWhile_append_dropWhile.symm⟩
  by_cases negative : text.head? = some '-'
  · obtain ⟨unsigned, rfl⟩ := List.head?_eq_some_iff.mp negative
    obtain ⟨sign, decimal, rfl⟩ := @digits true unsigned h
    exact ⟨decimal, by rw [Numeral.chars, sign]; rfl⟩
  · rw [splitNumeral?, beq_false_of_ne negative] at h
    obtain ⟨sign, decimal, rfl⟩ := digits h
    exact ⟨decimal, by rw [Numeral.chars, sign]; rfl⟩

theorem splitRange?_of_spans (front : first.Decimal) (back : last.Decimal)
    (h : Spans first last text) : splitRange? text = some (first, last) := by
  cases h with
  | @intro before afterFirst beforeLast after hbefore hafterFirst hbeforeLast hafter =>
    have head := splitNumeral?_chars front (isDecimalDigit_head?_append hafterFirst
      ('.' :: '.' :: (beforeLast ++ (last.chars ++ after))) (by rintro c ⟨⟩; decide))
    have tail := splitNumeral?_chars back (isDecimalDigit_head?_append hafter [] nofun)
    rw [List.append_nil] at tail
    have dots : ∀ rest, skipBlanks ('.' :: '.' :: rest) = '.' :: '.' :: rest := fun _ => rfl
    have done : skipBlanks after = [] := List.dropWhile_eq_nil_iff.mpr hafter
    rw [splitRange?, skipBlanks_append hbefore, skipBlanks_chars front, head]
    simp only [skipBlanks_append hafterFirst, dots, skipBlanks_append hbeforeLast,
      skipBlanks_chars back, tail, done, List.isEmpty_nil, if_true]

theorem spans_of_splitRange? (h : splitRange? text = some (first, last)) :
    first.Decimal ∧ last.Decimal ∧ Spans first last text := by
  rw [splitRange?] at h
  split at h
  · cases h
  · rename_i front rest hfirst
    split at h
    · rename_i rest' hdots
      split at h
      · cases h
      · rename_i back rest'' hlast
        split at h
        · rename_i ended
          obtain ⟨rfl, rfl⟩ := Prod.mk.inj (Option.some.inj h)
          obtain ⟨before, hbefore, htext⟩ := exists_blank_skipBlanks text
          obtain ⟨afterFirst, hafterFirst, hrest⟩ := exists_blank_skipBlanks rest
          obtain ⟨beforeLast, hbeforeLast, hrest'⟩ := exists_blank_skipBlanks rest'
          obtain ⟨decimal, hfirst⟩ := splitNumeral?_eq_some hfirst
          obtain ⟨decimal', hlast⟩ := splitNumeral?_eq_some hlast
          have hafter : Blank rest'' := List.dropWhile_eq_nil_iff.mp (List.isEmpty_iff.mp ended)
          refine ⟨decimal, decimal', ?_⟩
          rw [htext, hfirst, hrest, hdots, hrest', hlast]
          exact .intro hbefore hafterFirst hbeforeLast hafter
        · cases h
    · cases h

theorem splitRange?_eq_some_iff :
    splitRange? text = some (first, last) ↔
      first.Decimal ∧ last.Decimal ∧ Spans first last text :=
  ⟨spans_of_splitRange?, fun h => splitRange?_of_spans h.1 h.2.1 h.2.2⟩

end Layout

def Numeral.value (numeral : Numeral) : Int :=
  let magnitude : Int := Nat.ofDigitChars 10 numeral.digits 0
  if numeral.negative then -magnitude else magnitude

/-- The numeral is the number in ASCII digits. -/
structure Numeral.Writes (numeral : Numeral) (n : Int64) : Prop extends numeral.Plain where
  value : numeral.value = n.toInt

/-- The text is a range from one number to another. -/
def WritesRange (text : List Char) (first last : Int64) : Prop :=
  ∃ front back : Numeral, Spans front back text ∧ front.Writes first ∧ back.Writes last

section Numbers

variable {limit start m : Nat} {overflow : NumberFault} {digits : List Char} {n : Int64}

/-- Digits are read to their value, if that passes no limit: none of their prefixes does then. -/
theorem readDigits_of_isDigit (ascii : ∀ digit ∈ digits, digit.isDigit = true)
    (fits : Nat.ofDigitChars 10 digits start ≤ limit) :
    readDigits limit overflow start digits = .ok (Nat.ofDigitChars 10 digits start) := by
  induction digits generalizing start with
  | nil => rfl
  | cons digit digits ih =>
    rw [List.forall_mem_cons] at ascii
    rw [Nat.ofDigitChars_cons] at fits ⊢
    have below : 10 * start + (digit.toNat - '0'.toNat) ≤ limit := by
      rw [Nat.ofDigitChars_eq_ofDigitChars_zero] at fits
      have grows := Nat.le_mul_of_pos_left (10 * start + (digit.toNat - '0'.toNat))
        (Nat.pow_pos (n := digits.length) (show 0 < 10 by decide))
      omega
    simp only [readDigits, ascii.1, if_true, if_pos below]
    exact ih ascii.2 fits

/-- Only ASCII digits are read, and only within the limit. -/
theorem isDigit_of_readDigits (hstart : start ≤ limit)
    (h : readDigits limit overflow start digits = .ok m) :
    (∀ digit ∈ digits, digit.isDigit = true) ∧ Nat.ofDigitChars 10 digits start = m ∧
      m ≤ limit := by
  induction digits generalizing start with
  | nil =>
    obtain rfl := Except.ok.inj h
    exact ⟨nofun, rfl, hstart⟩
  | cons digit digits ih =>
    rw [readDigits] at h
    split at h
    · rename_i ascii
      simp only at h
      split at h
      · rename_i below
        obtain ⟨all, value, fits⟩ := ih below h
        exact ⟨List.forall_mem_cons.mpr ⟨ascii, all⟩, Nat.ofDigitChars_cons.trans value, fits⟩
      · cases h
    · cases h

/-- With the limit of a sign, what is read is exactly a number of 64 bits. -/
theorem readDigits_signed (limit : Nat) (sign : Nat → Int)
    (bounds : ∀ m, m ≤ limit ↔
      Int64.minValue.toInt ≤ sign m ∧ sign m ≤ Int64.maxValue.toInt) :
    (readDigits limit overflow 0 digits).map (fun m => Int64.ofInt (sign m)) = .ok n ↔
      (∀ digit ∈ digits, digit.isDigit = true) ∧
        sign (Nat.ofDigitChars 10 digits 0) = n.toInt := by
  constructor
  · intro h
    cases hread : readDigits limit overflow 0 digits with
    | error fault =>
      rw [hread] at h
      cases h
    | ok m =>
      rw [hread] at h
      obtain rfl : Int64.ofInt (sign m) = n := Except.ok.inj h
      obtain ⟨ascii, rfl, fits⟩ := isDigit_of_readDigits (Nat.zero_le limit) hread
      obtain ⟨lower, upper⟩ := (bounds _).mp fits
      exact ⟨ascii, (Int64.toInt_ofInt_of_le lower (Int.lt_of_le_sub_one upper)).symm⟩
  · rintro ⟨ascii, value⟩
    have fits := (bounds (Nat.ofDigitChars 10 digits 0)).mpr
      (value ▸ ⟨n.minValue_le_toInt, n.toInt_le⟩)
    rw [readDigits_of_isDigit ascii fits]
    exact congrArg Except.ok ((congrArg Int64.ofInt value).trans n.ofInt_toInt)

theorem Numeral.read_eq (numeral : Numeral) : numeral.read =
    if numeral.negative then
      (readDigits (Nat.pow 2 63) .tooSmall 0 numeral.digits).map fun m : Nat => Int64.ofInt (-m)
    else (readDigits (Nat.pow 2 63 - 1) .tooLarge 0 numeral.digits).map fun m : Nat =>
      Int64.ofInt m := by
  rw [Numeral.read]
  split
  · cases readDigits (Nat.pow 2 63) .tooSmall 0 numeral.digits <;> rfl
  · cases readDigits (Nat.pow 2 63 - 1) .tooLarge 0 numeral.digits <;> rfl

theorem Numeral.read_eq_ok_iff {numeral : Numeral} :
    numeral.read = .ok n ↔
      (∀ digit ∈ numeral.digits, digit.isDigit = true) ∧ numeral.value = n.toInt := by
  have limit : Nat.pow 2 63 = 9223372036854775808 := rfl
  have least : Int64.minValue.toInt = -9223372036854775808 := rfl
  have greatest : Int64.maxValue.toInt = 9223372036854775807 := rfl
  rw [Numeral.read_eq, Numeral.value]
  split
  · exact readDigits_signed (Nat.pow 2 63) (fun m => -(m : Int)) fun m => by omega
  · exact readDigits_signed (Nat.pow 2 63 - 1) (fun m => (m : Int)) fun m => by omega

theorem Numeral.read_of_decimal {numeral : Numeral} (decimal : numeral.Decimal) :
    numeral.read = .ok n ↔ numeral.Writes n :=
  Numeral.read_eq_ok_iff.trans
    ⟨fun h => ⟨⟨h.1, decimal.some⟩, h.2⟩, fun h => ⟨h.digits, h.value⟩⟩

theorem readRange_eq_ok_iff {text : String} {ty : Ty} :
    readRange text = .ok ty ↔
      ∃ first last, WritesRange text.toList first last ∧ ty = .choice (.range first last) := by
  constructor
  · intro h
    rw [readRange] at h
    split at h
    · cases h
    · rename_i front back hsplit
      obtain ⟨decimal, decimal', spans⟩ := splitRange?_eq_some_iff.mp hsplit
      cases hfront : front.read with
      | error fault =>
        rw [hfront] at h
        cases h
      | ok first =>
        cases hback : back.read with
        | error fault =>
          rw [hfront, hback] at h
          cases h
        | ok last =>
          rw [hfront, hback] at h
          have writes := (Numeral.read_of_decimal decimal).mp hfront
          have writes' := (Numeral.read_of_decimal decimal').mp hback
          exact ⟨first, last, ⟨front, back, spans, writes, writes'⟩, (Except.ok.inj h).symm⟩
  · rintro ⟨first, last, ⟨front, back, spans, writes, writes'⟩, rfl⟩
    have decimal := writes.decimal
    have decimal' := writes'.decimal
    rw [readRange, splitRange?_eq_some_iff.mpr ⟨decimal, decimal', spans⟩]
    simp only [(Numeral.read_of_decimal decimal).mpr writes,
      (Numeral.read_of_decimal decimal').mpr writes']
    rfl

end Numbers

section Printed

def Numeral.ofInt (n : Int) : Numeral := ⟨decide (n < 0), Nat.toDigits 10 n.natAbs⟩

theorem Numeral.value_ofInt (n : Int) : (Numeral.ofInt n).value = n := by
  have magnitude : Nat.ofDigitChars 10 (Nat.toDigits 10 n.natAbs) 0 = n.natAbs :=
    Nat.ofDigitChars_ten_toDigits
  simp only [Numeral.value, Numeral.ofInt, magnitude, decide_eq_true_eq]
  split
  · omega
  · omega

theorem Numeral.writes_ofInt (n : Int64) : (Numeral.ofInt n.toInt).Writes n where
  digits _ := Nat.isDigit_of_mem_toDigits (by decide) (by decide)
  some := Nat.toDigits_ne_nil
  value := Numeral.value_ofInt n.toInt

theorem toList_toString_int (n : Int) : (toString n).toList = (Numeral.ofInt n).chars := by
  cases n with
  | ofNat m => exact Nat.toList_repr
  | negSucc m =>
    have negative : decide (Int.negSucc m < 0) = true := decide_eq_true (Int.negSucc_lt_zero m)
    rw [Numeral.ofInt, Numeral.chars, if_pos negative, Int.natAbs_negSucc]
    change ("-" ++ Nat.repr (m + 1)).toList = _
    rw [String.toList_append, Nat.toList_repr]
    rfl

/-- The text of a range has no white space in it. -/
theorem writesRange_text (first last : Int64) :
    WritesRange (Choices.range first last).text.toList first last := by
  refine ⟨.ofInt first.toInt, .ofInt last.toInt, ?_,
    Numeral.writes_ofInt first, Numeral.writes_ofInt last⟩
  have none : Blank [] := nofun
  have text : (Choices.range first last).text.toList = [] ++ ((Numeral.ofInt first.toInt).chars ++
      ([] ++ '.' :: '.' :: ([] ++ ((Numeral.ofInt last.toInt).chars ++ [])))) := by
    rw [Choices.text, String.toList_append, String.toList_append, toList_toString_int,
      toList_toString_int, List.append_nil, List.append_assoc]
    rfl
  rw [text]
  exact .intro none none none none

theorem readRange_text (first last : Int64) :
    readRange (Choices.range first last).text = .ok (.choice (.range first last)) :=
  readRange_eq_ok_iff.mpr ⟨first, last, writesRange_text first last, rfl⟩

end Printed

/-- Exactly the texts that write a range are read, to the numbers that they write, and any other
text is refused. The text of a range reads back as that range. -/
theorem ranges_read_exactly :
    (∀ text ty, readRange text = .ok ty ↔
      ∃ first last, WritesRange text.toList first last ∧ ty = .choice (.range first last)) ∧
    (∀ text, (∃ fault, readRange text = .error fault) ↔
      ¬ ∃ first last, WritesRange text.toList first last) ∧
    ∀ first last,
      readRange (Choices.range first last).text = .ok (.choice (.range first last)) := by
  refine ⟨fun _ _ => readRange_eq_ok_iff, fun text => ⟨?_, fun unwritten => ?_⟩, readRange_text⟩
  · rintro ⟨fault, refused⟩ ⟨first, last, writes⟩
    have read := readRange_eq_ok_iff.mpr ⟨first, last, writes, rfl⟩
    cases refused.symm.trans read
  · cases read : readRange text with
    | error fault => exact ⟨fault, rfl⟩
    | ok ty =>
      obtain ⟨first, last, writes, -⟩ := readRange_eq_ok_iff.mp read
      exact absurd ⟨first, last, writes⟩ unwritten

example : readRange "\u2003-9223372036854775808 .. 007\n" =
    .ok (.choice (.range Int64.minValue 7)) := rfl

/-- Digits of other scripts have the layout of a range, but no value. -/
example : readRange "1..٢" = .error (.rangeEnd .invalidDigit) := rfl

end Raw

end OptionSchema
