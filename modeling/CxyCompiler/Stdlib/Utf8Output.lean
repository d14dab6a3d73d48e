import CxyCompiler.Core.Utf8Decode
import CxyCompiler.Stdlib.Value

/-!
# Characters on an output stream (`runtime/builtins.cxy`)

`appendChar` and the compiler's `printUtf8` write a character by its bits, each on its own; they
differ in how far the bits of the first of four octets are shifted.

* `appendChar_low` — **up to three octets, both write the same**.
* `appendChar_high` — the four octets of either.
* `appendChar_iff` — **a character is written as UTF-8 if and only if it is below 0x10000**.
-/

namespace CxyCompiler.Stdlib

open CxyCompiler.Core CxyCompiler.Lib.Utf8

variable {c : UInt32}

theorem appendChar_low (hc : c < 0x10000) : encodeUtf8 c = some (appendChar c) := by
  unfold encodeUtf8 appendChar
  by_cases h1 : c < 0x80
  · rw [if_pos h1, if_pos h1]
  rw [if_neg h1, if_neg h1]
  by_cases h2 : c < 0x800
  · rw [if_pos h2, if_pos h2]
    rfl
  · rw [if_neg h2, if_neg h2, if_pos hc, if_pos hc]
    rfl

/-- The first of four octets, by the bits that are put behind its mark. -/
def leadOctet (k : ℕ) : UInt8 := ((0xF0 : UInt32) ||| UInt32.ofNat k).toUInt8

/-- The bits of a character are in the wrong place, and its largest one is lost in the mark.
Kind: L -/
theorem leadOctet_spec : ∀ k < 17, 0 < k → 0xF0 ≤ (leadOctet k).toNat ∧
    leadOctet k ≠ octet (k / 4 + 0xF0) ∧
    ((leadOctet k).toNat < 0xF8 → (leadOctet k).toNat % 8 ≠ k / 4) := by
  decide

theorem appendChar_high (hc : 0x10000 ≤ c.toNat) (hc' : c.toNat < 0x200000) :
    ∃ x y z : UInt8, appendChar c = [leadOctet (c.toNat / 65536), x, y, z] ∧
      encodeUtf8 c = some [octet (c.toNat / 262144 + 0xF0), x, y, z] := by
  have h16 : c >>> 16 = UInt32.ofNat (c.toNat / 65536) := by
    have hshift : (c >>> 16).toNat = c.toNat / 2 ^ 16 := toNat_shiftRight c 16 (by decide)
    rw [← UInt32.toNat_inj, hshift, UInt32.toNat_ofNat']
    exact (Nat.mod_eq_of_lt (by omega)).symm
  have hone : ¬ c < 0x80 := by
    rw [UInt32.lt_iff_toNat_lt]
    exact not_lt.mpr (le_trans (by decide) hc)
  have htwo : ¬ c < 0x800 := by
    rw [UInt32.lt_iff_toNat_lt]
    exact not_lt.mpr (le_trans (by decide) hc)
  have hthree : ¬ c < 0x10000 := by
    rw [UInt32.lt_iff_toNat_lt]
    exact not_lt.mpr hc
  have hfour : c < 0x200000 := UInt32.lt_iff_toNat_lt.mpr hc'
  refine ⟨trail (c >>> 12), trail (c >>> 6), trail c, ?_, ?_⟩
  · unfold appendChar
    rw [if_neg hone, if_neg htwo, if_neg hthree, if_pos hfour, h16]
    rfl
  · have hencode : encodeUtf8 c =
        some [((0xF0 : UInt32) ||| (c >>> 18)).toUInt8, trail (c >>> 12),
          trail (c >>> 6), trail c] := by
      unfold encodeUtf8
      rw [if_neg hone, if_neg htwo, if_neg hthree, if_pos hfour]
      rfl
    rcases encodeUtf8_cases c with h | h | h | h | h
    · omega
    · omega
    · omega
    · have hlead := (List.cons.inj (Option.some.inj (hencode.symm.trans h.2.2))).1
      rw [hencode, hlead]
    · omega

/-- **A character is written as UTF-8 if and only if it is below 0x10000**: no other one is read
back by the decoder, nor written as `printUtf8` writes it. Kind: P -/
theorem appendChar_iff (hc : c < 0x110000) :
    (decodeUtf8Char (appendChar c) = (c, (appendChar c).length) ↔ c < 0x10000) ∧
      (printUtf8 c false = some (appendChar c) ↔ c < 0x10000) := by
  have hprint : printUtf8 c false = encodeUtf8 c := rfl
  rw [hprint]
  by_cases hlow : c < 0x10000
  · have hread := decode_encode (appendChar_low hlow) []
    rw [List.append_nil] at hread
    exact ⟨iff_of_true hread hlow, iff_of_true (appendChar_low hlow) hlow⟩
  · have hge : 0x10000 ≤ c.toNat := not_lt.mp fun h => hlow (UInt32.lt_iff_toNat_lt.mpr h)
    have hlt : c.toNat < 0x110000 := UInt32.lt_iff_toNat_lt.mp hc
    obtain ⟨x, y, z, hwrite, hencode⟩ := appendChar_high hge (by omega)
    obtain ⟨hmark, hne, hbits⟩ := leadOctet_spec (c.toNat / 65536) (by omega) (by omega)
    have hquarter : c.toNat / 65536 / 4 = c.toNat / 262144 := Nat.div_div_eq_div_mul _ _ _
    rw [hquarter] at hne hbits
    have hdecode := decode_encode hencode []
    have hoctet := toNat_octet (by omega : c.toNat / 262144 + 0xF0 < 256)
    rw [List.append_nil] at hdecode
    constructor
    · refine iff_of_false ?_ hlow
      rw [hwrite]
      intro hread
      by_cases hlead : (leadOctet (c.toNat / 65536)).toNat < 0xF8
      · -- the octets behind the first one are the same
        have hwrong := (@decode_four (leadOctet (c.toNat / 65536)) x y z [] hmark hlead).2
        have hright := (@decode_four (octet (c.toNat / 262144 + 0xF0)) x y z [] (by omega)
          (by omega)).2
        have hsame : (c, [leadOctet (c.toNat / 65536), x, y, z].length).1.toNat =
            (c, [octet (c.toNat / 262144 + 0xF0), x, y, z].length).1.toNat := rfl
        rw [← hread, ← hdecode, hwrong, hright, hoctet] at hsame
        exact hbits hlead (by omega)
      · have hlen := @decode_invalid (leadOctet (c.toNat / 65536)) [x, y, z] (not_lt.mp hlead)
        rw [hread] at hlen
        exact absurd hlen (by simp)
    · refine iff_of_false ?_ hlow
      rw [hwrite, hencode]
      exact fun h => hne (List.cons.inj (Option.some.inj h)).1.symm

theorem appendChar_iff_euro : (0x20AC : UInt32) < 0x110000 ∧
    (decodeUtf8Char (appendChar 0x20AC) = (0x20AC, (appendChar 0x20AC).length) ↔
      (0x20AC : UInt32) < 0x10000) ∧
      (printUtf8 0x20AC false = some (appendChar 0x20AC) ↔ (0x20AC : UInt32) < 0x10000) :=
  ⟨by decide, appendChar_iff (by decide)⟩

/-- A character of four octets is neither read back nor written as by `printUtf8`. Kind: L -/
theorem appendChar_four : decodeUtf8Char (appendChar 0x1F600) ≠ (0x1F600,
    (appendChar 0x1F600).length) ∧
    printUtf8 0x1F600 false ≠ some (appendChar 0x1F600) := by
  decide

end CxyCompiler.Stdlib
