import CryptSha512.AsciiNumbers
import CryptSha512.DelimitedText
import CryptSha512.Utf8Text

/-!
The language of salt specifications, without positions or accumulators: what a
specification denotes, how a denotation is written, and that writing it and
reading it back loses nothing.
-/

namespace CryptSha512.SaltSpecGrammar

open CryptSha512.AsciiNumbers
open CryptSha512.DecimalText
open CryptSha512.DelimitedText
open CryptSha512.Utf8Text

/-- A denotation: an explicit round count in range, if any, and the effective
salt. -/
@[ext] structure SaltSpec where
  rounds : Option Nat
  salt : List UInt8
  rounds_mem : ∀ n ∈ rounds, 1000 ≤ n ∧ n ≤ 999999999
  salt_length_le : salt.length ≤ saltLenMax
  dollar_not_mem : dollar ∉ salt

/-- The range of round counts that the construction runs with. -/
def clampRounds (n : Nat) : Nat := max 1000 (min n 999999999)

/-- A rounds parameter without its separator. -/
def roundsField (digits : List UInt8) : List UInt8 := sha512RoundsPrefix ++ digits

/-- The text starts with a rounds parameter: a rounds field over decimal digits,
possibly none, closed by a separator. -/
def StartsWithRounds (text digits rest : List UInt8) : Prop :=
  text = roundsField digits ++ dollar :: rest ∧ digits.all isDigit = true

def withoutPrefix (text : List UInt8) : List UInt8 :=
  (stripPrefix sha512SaltPrefix text).getD text

/-- The part of a text that is used as the salt. -/
def effectiveSalt (text : List UInt8) : List UInt8 :=
  (untilSeparator dollar text).take saltLenMax

/-- The rounds parameter in front of a text, and what follows it. -/
def splitRounds (text : List UInt8) : Option (List UInt8 × List UInt8) :=
  (stripPrefix sha512RoundsPrefix text).bind fun rest =>
    let digits := untilSeparator dollar rest
    if dollar ∈ rest ∧ digits.all isDigit = true then
      some (digits, rest.drop (digits.length + 1))
    else none

theorem isDigit_dollar : isDigit dollar = false := rfl

theorem dollar_not_mem_digits {digits : List UInt8} (h : digits.all isDigit = true) :
    dollar ∉ digits := by
  intro hmem
  have hdigit := List.all_eq_true.mp h dollar hmem
  rw [isDigit_dollar] at hdigit
  contradiction

theorem roundsField_free {digits : List UInt8} (h : digits.all isDigit = true) :
    dollar ∉ roundsField digits := by
  have hfront : dollar ∉ sha512RoundsPrefix := by decide
  rw [roundsField, List.mem_append, not_or]
  exact ⟨hfront, dollar_not_mem_digits h⟩

theorem isAscii_roundsField {digits : List UInt8} (h : digits.all isDigit = true) :
    IsAscii (roundsField digits) := by
  have hfront : IsAscii sha512RoundsPrefix := by decide
  apply hfront.append
  intro byte hbyte
  have hdigit := isDigit_iff.mp (List.all_eq_true.mp h byte hbyte)
  exact UInt8.lt_iff_toNat_lt.mpr (Nat.lt_of_le_of_lt hdigit.2 (by decide))

theorem startsWithRounds_iff {text digits rest : List UInt8} :
    StartsWithRounds text digits rest ↔ splitRounds text = some (digits, rest) := by
  constructor
  · rintro ⟨rfl, hdigits⟩
    have hnot := dollar_not_mem_digits hdigits
    rw [roundsField, List.append_assoc, splitRounds, stripPrefix_append, Option.bind_some]
    simp only [untilSeparator_append_cons rest hnot]
    rw [if_pos ⟨by simp, hdigits⟩]
    simp
  · intro h
    simp only [splitRounds, Option.bind_eq_some_iff] at h
    obtain ⟨tail, hstrip, htail⟩ := h
    split at htail
    · rename_i hcut
      obtain ⟨before, after, rfl, hbefore⟩ := List.eq_append_cons_of_mem hcut.1
      rw [untilSeparator_append_cons after hbefore] at htail hcut
      have hparts : before = digits ∧ after = rest := by simpa using htail
      obtain ⟨rfl, rfl⟩ := hparts
      refine ⟨?_, hcut.2⟩
      rw [stripPrefix_eq_some_iff.mp hstrip, roundsField, List.append_assoc]
    · contradiction

theorem splitRounds_eq_none_iff {text : List UInt8} :
    splitRounds text = none ↔ ∀ digits rest, ¬ StartsWithRounds text digits rest := by
  rw [Option.eq_none_iff_forall_ne_some]
  constructor
  · intro h digits rest hrounds
    exact h _ (startsWithRounds_iff.mp hrounds)
  · rintro h ⟨digits, rest⟩ hsome
    exact h digits rest (startsWithRounds_iff.mpr hsome)

theorem splitRounds_of_not_mem {text : List UInt8} (h : dollar ∉ text) :
    splitRounds text = none := by
  rw [splitRounds_eq_none_iff]
  rintro digits rest ⟨rfl, _⟩
  simp at h

theorem clampRounds_mem (n : Nat) : 1000 ≤ clampRounds n ∧ clampRounds n ≤ 999999999 := by
  rw [clampRounds]
  omega

theorem clampRounds_of_mem {n : Nat} (h : 1000 ≤ n ∧ n ≤ 999999999) :
    clampRounds n = n := by
  rw [clampRounds]
  omega

theorem effectiveSalt_length_le (text : List UInt8) :
    (effectiveSalt text).length ≤ saltLenMax :=
  List.length_take_le _ _

theorem dollar_not_mem_effectiveSalt (text : List UInt8) : dollar ∉ effectiveSalt text :=
  fun h => separator_not_mem_untilSeparator dollar text (List.mem_of_mem_take h)

theorem effectiveSalt_of_not_mem {text : List UInt8} (h : dollar ∉ text) :
    effectiveSalt text = text.take saltLenMax := by
  rw [effectiveSalt, untilSeparator_eq_self h]

theorem effectiveSalt_append_cons {text : List UInt8} (rest : List UInt8)
    (h : dollar ∉ text) : effectiveSalt (text ++ dollar :: rest) = text.take saltLenMax := by
  rw [effectiveSalt, untilSeparator_append_cons rest h]

namespace SaltSpec

/-- The specification whose rounds parameter, if any, reads `digits`. -/
def ofParts (digits : Option (List UInt8)) (text : List UInt8) : SaltSpec where
  rounds := digits.map fun digits => clampRounds (decimalValue digits)
  salt := effectiveSalt text
  rounds_mem := by
    intro n hn
    obtain ⟨digits, _, rfl⟩ := Option.mem_map.mp hn
    exact clampRounds_mem _
  salt_length_le := effectiveSalt_length_le text
  dollar_not_mem := dollar_not_mem_effectiveSalt text

/-- What a specification means. -/
def denote (text : List UInt8) : SaltSpec :=
  match splitRounds (withoutPrefix text) with
  | some (digits, rest) => ofParts (some digits) rest
  | none => ofParts none (withoutPrefix text)

def effectiveRounds (spec : SaltSpec) : Nat := spec.rounds.getD 5000

/-- The rounds parameter of the normal form, if there is one. -/
def roundsSegment (spec : SaltSpec) : List UInt8 :=
  match spec.rounds with
  | some n => roundsField (decimal n) ++ [dollar]
  | none => []

/-- The normal form of a specification. -/
def render (spec : SaltSpec) : List UInt8 :=
  sha512SaltPrefix ++ spec.roundsSegment ++ spec.salt

theorem effectiveRounds_mem (spec : SaltSpec) :
    1000 ≤ spec.effectiveRounds ∧ spec.effectiveRounds ≤ 999999999 := by
  rw [effectiveRounds]
  cases hrounds : spec.rounds with
  | none => simp
  | some n => exact spec.rounds_mem n hrounds

theorem denote_of_startsWithRounds {text digits rest : List UInt8}
    (h : StartsWithRounds (withoutPrefix text) digits rest) :
    denote text = ofParts (some digits) rest := by
  rw [denote, startsWithRounds_iff.mp h]

theorem denote_of_not_startsWithRounds {text : List UInt8}
    (h : ∀ digits rest, ¬ StartsWithRounds (withoutPrefix text) digits rest) :
    denote text = ofParts none (withoutPrefix text) := by
  rw [denote, splitRounds_eq_none_iff.mpr h]

theorem withoutPrefix_append (text : List UInt8) :
    withoutPrefix (sha512SaltPrefix ++ text) = text := by
  rw [withoutPrefix, stripPrefix_append, Option.getD_some]

theorem denote_rounds {digits : List UInt8} (hdigits : digits.all isDigit = true)
    (rest : List UInt8) :
    denote (sha512SaltPrefix ++ roundsField digits ++ dollar :: rest) =
      ofParts (some digits) rest := by
  apply denote_of_startsWithRounds
  rw [List.append_assoc, withoutPrefix_append]
  exact ⟨rfl, hdigits⟩

theorem denote_no_rounds {text : List UInt8} (h : dollar ∉ text) :
    denote (sha512SaltPrefix ++ text) = ofParts none text := by
  rw [denote, withoutPrefix_append, splitRounds_of_not_mem h]

theorem isDigit_decimal (n : Nat) : (decimal n).all isDigit = true :=
  List.all_eq_true.mpr fun _ h => isDigit_of_mem_decimal h

theorem effectiveSalt_salt (spec : SaltSpec) : effectiveSalt spec.salt = spec.salt := by
  rw [effectiveSalt_of_not_mem spec.dollar_not_mem,
    List.take_of_length_le spec.salt_length_le]

/-- Reading a written specification gives it back, whatever its salt is. -/
theorem denote_render (spec : SaltSpec) : denote spec.render = spec := by
  rw [render, roundsSegment]
  cases hrounds : spec.rounds with
  | none =>
      rw [List.append_nil, denote_no_rounds spec.dollar_not_mem]
      ext1
      · rw [hrounds]
        rfl
      · exact spec.effectiveSalt_salt
  | some n =>
      simp only
      rw [← List.append_assoc, List.append_assoc _ [dollar], List.singleton_append,
        denote_rounds (isDigit_decimal n)]
      ext1
      · rw [hrounds]
        simp only [ofParts, Option.map_some, decimalValue_decimal,
          clampRounds_of_mem (spec.rounds_mem n hrounds)]
      · exact spec.effectiveSalt_salt

theorem render_injective : Function.Injective render :=
  Function.LeftInverse.injective denote_render

theorem render_length_le (spec : SaltSpec) : spec.render.length ≤ 36 := by
  have hsalt := spec.salt_length_le
  have hsegment : spec.roundsSegment.length ≤ 17 := by
    rw [roundsSegment]
    cases hrounds : spec.rounds with
    | none => simp
    | some n =>
        have hbound := (spec.rounds_mem n hrounds).2
        have hdecimal := decimal_length_le (by omega) (show n < 10 ^ 9 by omega)
        simp only [roundsField, List.length_append, List.length_singleton,
          sha512RoundsPrefix_length]
        omega
  rw [saltLenMax] at hsalt
  simp only [render, List.length_append, sha512SaltPrefix_length]
  omega

theorem isAscii_roundsSegment (spec : SaltSpec) :
    IsAscii (sha512SaltPrefix ++ spec.roundsSegment) := by
  have hfront : IsAscii sha512SaltPrefix := by decide
  apply hfront.append
  rw [roundsSegment]
  cases spec.rounds with
  | none => decide
  | some n =>
      have hdollar : IsAscii [dollar] := by decide
      exact (isAscii_roundsField (isDigit_decimal n)).append hdollar

end SaltSpec

end CryptSha512.SaltSpecGrammar
