import CxyCompiler.Core.Numerals

/-!
# Character literals (`core/utils.c`)

`convertEscapeSeq` reads the character a literal stands for. An assertion that fails aborts the
program: then there is no result.

* `convertEscapeSeq_isSome_iff` — **only bytes outside of ASCII abort**, where they are no UTF-8
  sequence or where more is in the literal.
-/

namespace CxyCompiler.Core

open CxyCompiler.Lib.Numeral

/-- Source: `isdigit` of the C locale. -/
def isdigit (c : UInt8) : Bool := ascii '0' ≤ c && c ≤ ascii '9'

/-- Source: `isxdigit` of the C locale. -/
def isxdigit (c : UInt8) : Bool := isDigitOf 16 c

/-- Source: `utils.c` `isodigit`. -/
def isodigit (c : UInt8) : Bool := ascii '0' ≤ c && c ≤ ascii '7'

/-- What `strtoul` returns, how much it has read, and that it did not fit. -/
structure Ulong where
  value : ℕ
  read : ℕ
  overflow : Bool
deriving DecidableEq, Repr

/-- The digits at the start of a text as a number of 64 bits, with `read` characters in front of
them. -/
def ulongDigits (base : ℕ) (negative : Bool) (read : ℕ) (str : List UInt8) : Ulong :=
  let ds := str.takeWhile (isDigitOf base)
  let n := value base ds
  if 2 ^ 64 ≤ n then ⟨2 ^ 64 - 1, read + ds.length, true⟩
  else ⟨if negative then (2 ^ 64 - n) % 2 ^ 64 else n, read + ds.length, false⟩

/-- Source: `strtoul` of the C library, for the bases 8 and 16; where there is no digit, nothing is
read, and a `0x` counts only in front of one. -/
def strtoul (str : List UInt8) (base : ℕ) : Ulong :=
  let spaces := (str.takeWhile isspace).length
  let str := str.drop spaces
  let negative := str.head? = some (ascii '-')
  let sign := if negative ∨ str.head? = some (ascii '+') then 1 else 0
  let str := str.drop sign
  let hex := base = 16 ∧ str.head? = some (ascii '0') ∧
    ((str.drop 1).head? = some (ascii 'x') ∨ (str.drop 1).head? = some (ascii 'X')) ∧
    (str.drop 2).head?.any (isDigitOf 16)
  if hex then ulongDigits base negative (spaces + sign + 2) (str.drop 2)
  else if str.head?.any (isDigitOf base) then ulongDigits base negative (spaces + sign) str
  else ⟨0, 0, false⟩

/-- How many characters are read, and the character; `ord` has 32 bits.
Source: `utils.c` `convertStrToCharOrd`. -/
def convertStrToCharOrd (ptr : List UInt8) (base : ℕ) : ℕ × UInt32 :=
  let r := strtoul ptr base
  let ord := UInt32.ofNat r.value
  (if ord ≤ 255 && !r.overflow then r.read else 0, ord)

/-- How many ones there are in front of the first zero. Source: `utils.c` `countLeadingZeros`. -/
def countLeadingOnes (c : UInt8) : ℕ :=
  if c < 0x80 then 0 else if c < 0xC0 then 1 else if c < 0xE0 then 2 else if c < 0xF0 then 3
  else if c < 0xF8 then 4 else if c < 0xFC then 5 else if c < 0xFE then 6 else if c < 0xFF then 7
  else 8

/-- The bits that a byte behind the first adds. -/
def continuation (c : UInt8) : UInt32 := (c &&& 0x3F).toUInt32

/-- A character behind the end of the text is its NUL. -/
def charAt (str : List UInt8) (i : ℕ) : UInt8 := str.getD i 0

/-- The length of the sequence and the character. Source: `utils.c` `convertStrToUtf32`. -/
def convertStrToUtf32 (s : List UInt8) (count : ℕ) : Option (ℕ × UInt32) :=
  let s₀ := charAt s 0
  let len := countLeadingOnes s₀
  if len = 0 then some (1, s₀.toUInt32)
  else if len < count then none
  else if len = 2 then
    some (2, ((s₀ &&& 0x1F).toUInt32 <<< 6) ||| continuation (charAt s 1))
  else if len = 3 then
    some (3, ((s₀ &&& 0xF).toUInt32 <<< 12) ||| (continuation (charAt s 1) <<< 6) |||
      continuation (charAt s 2))
  else if len = 4 then
    some (4, ((s₀ &&& 0x7).toUInt32 <<< 18) ||| (continuation (charAt s 1) <<< 12) |||
      (continuation (charAt s 2) <<< 6) ||| continuation (charAt s 3))
  else none

/-- How many characters are read, 0 on an error, and what has been read so far.
Source: `utils.c` `parseUnicodeEscape`. -/
def parseUnicodeEscape (ptr : List UInt8) (n digits : ℕ) : ℕ × UInt32 :=
  if n < digits + 2 then (0, 0)
  else
    let ds := (List.range digits).map fun i => charAt ptr (2 + i)
    let res := UInt32.ofNat (value 16 (ds.takeWhile isxdigit))
    if ds.any (fun c => !isxdigit c) then (0, res)
    else if 0x10FFFF < res || (0xD800 ≤ res && res ≤ 0xDFFF) then (0, res)
    else (2 + digits, res)

/-- The escape sequences of two characters. -/
def simpleEscape (c : UInt8) : Option UInt32 :=
  if c = ascii 'n' then some 10
  else if c = ascii 't' then some 9
  else if c = ascii 'v' then some 11
  else if c = ascii 'r' then some 13
  else if c = ascii 'a' then some 7
  else if c = ascii 'b' then some 8
  else if c = ascii 'f' then some 12
  else if c = ascii '$' then some 36
  else if c = ascii '"' then some 34
  else if c = ascii '\'' then some 39
  else if c = ascii '\\' then some 92
  else none

/-- How many of the characters at `ptr` are read, and the character; `*res` is 0 before.
Source: `utils.c` `convertEscapeSeq`. -/
def convertEscapeSeq (ptr : List UInt8) (n : ℕ) : Option (ℕ × UInt32) :=
  if n = 0 then some (0, 0)
  else if charAt ptr 0 = ascii '\\' then
    if n ≤ 1 then some (0, 0)
    else
      let c := charAt ptr 1
      match simpleEscape c with
      | some res => some (2, res)
      | none =>
          if c = ascii 'x' then
            if n ≤ 2 then some (0, 0)
            else
              let r := convertStrToCharOrd (ptr.drop 2) 16
              some (2 + r.1, r.2)
          else if c = ascii '0' && !(isodigit (charAt ptr 2) && isodigit (charAt ptr 3)) then
            some (2, 0)
          else if c = ascii 'u' then
            if n < 6 then some (0, 0) else some (parseUnicodeEscape ptr n 4)
          else if c = ascii 'U' then
            if n < 10 then some (0, 0) else some (parseUnicodeEscape ptr n 8)
          else if isdigit c then
            let r := convertStrToCharOrd (ptr.drop 1) 8
            some (1 + r.1, r.2)
          else some (0, 0)
  else if 0x80 ≤ charAt ptr 0 then convertStrToUtf32 ptr n
  else some (1, (charAt ptr 0).toUInt32)

/-- A byte outside of ASCII begins a sequence that is at least as long as the literal. -/
def BeginsSequence (ptr : List UInt8) (n : ℕ) : Prop :=
  n ≤ countLeadingOnes (charAt ptr 0) ∧
    2 ≤ countLeadingOnes (charAt ptr 0) ∧ countLeadingOnes (charAt ptr 0) ≤ 4

/-- **Only bytes outside of ASCII abort.** Kind: P -/
theorem convertEscapeSeq_isSome_iff (ptr : List UInt8) {n : ℕ} (hn : 0 < n) :
    (convertEscapeSeq ptr n).isSome = true ↔
      (0x80 ≤ charAt ptr 0 → BeginsSequence ptr n) := by
  unfold convertEscapeSeq
  rw [if_neg (by omega)]
  by_cases hslash : charAt ptr 0 = ascii '\\'
  · have hlow : ¬ (0x80 : UInt8) ≤ charAt ptr 0 := by
      rw [hslash]
      decide
    rw [if_pos hslash]
    refine iff_of_true ?_ fun h => absurd h hlow
    dsimp only
    cases simpleEscape (charAt ptr 1) <;> dsimp only <;> split_ifs <;> rfl
  · rw [if_neg hslash]
    by_cases hhigh : (0x80 : UInt8) ≤ charAt ptr 0
    · have hlen : countLeadingOnes (charAt ptr 0) ≠ 0 := by
        have hnot : ¬ charAt ptr 0 < 0x80 := by
          rw [UInt8.lt_iff_toNat_lt]
          exact Nat.not_lt.mpr (Iff.mp UInt8.le_iff_toNat_le hhigh)
        unfold countLeadingOnes
        rw [if_neg hnot]
        split_ifs <;> decide
      rw [if_pos hhigh]
      unfold convertStrToUtf32 BeginsSequence
      dsimp only
      rw [if_neg hlen]
      split_ifs with hcount h2 h3 h4
      · exact iff_of_false (by simp) fun h => Nat.not_le.mpr hcount (h hhigh).1
      · exact iff_of_true rfl fun _ => by omega
      · exact iff_of_true rfl fun _ => by omega
      · exact iff_of_true rfl fun _ => by omega
      · exact iff_of_false (by simp) fun h => by
          have hbounds := h hhigh
          omega
    · rw [if_neg hhigh]
      exact iff_of_true rfl fun h => absurd h hhigh

end CxyCompiler.Core
