import CxyCompiler.Core.Format

/-!
# Reading UTF-8 (`core/format.c`)

`decodeUtf8Char` takes the length of a character from its first octet, and the bits from the octets
behind it without a look at their marks.

* `decode_two`, `decode_three`, `decode_four` — what is read, by its octets.
* `decode_encode` — **what `printUtf8` prints is read back**.
-/

namespace CxyCompiler.Core

open CxyCompiler.Lib.Numeral CxyCompiler.Lib.Utf8

/-- The character, and how far the pointer is moved. Source: `format.c` `decodeUtf8Char`. -/
def decodeUtf8Char (p : List UInt8) : UInt32 × ℕ :=
  let p₀ := charAt p 0
  if p₀ < 0x80 then (p₀.toUInt32, 1)
  else if p₀ &&& 0xE0 = 0xC0 then (((p₀ &&& 0x1F).toUInt32 <<< 6) ||| continuation (charAt p 1), 2)
  else if p₀ &&& 0xF0 = 0xE0 then
    (((p₀ &&& 0xF).toUInt32 <<< 12) ||| (continuation (charAt p 1) <<< 6) ||| continuation
      (charAt p 2), 3)
  else if p₀ &&& 0xF8 = 0xF0 then
    (((p₀ &&& 0x7).toUInt32 <<< 18) ||| (continuation (charAt p 1) <<< 12) |||
      (continuation (charAt p 2) <<< 6) ||| continuation (charAt p 3), 4)
  else (p₀.toUInt32, 1)

/-! ## By the octets -/

/-- Which octets begin a character of which length. Kind: L -/
theorem lead_spec (x : UInt8) : (x < 0x80 ↔ x.toNat < 0x80) ∧
    (x &&& 0xE0 = 0xC0 ↔ 0xC0 ≤ x.toNat ∧ x.toNat < 0xE0) ∧
    (x &&& 0xF0 = 0xE0 ↔ 0xE0 ≤ x.toNat ∧ x.toNat < 0xF0) ∧
    (x &&& 0xF8 = 0xF0 ↔ 0xF0 ≤ x.toNat ∧ x.toNat < 0xF8) :=
  forall_byte (p := fun x => (x < 0x80 ↔ x.toNat < 0x80) ∧
    (x &&& 0xE0 = 0xC0 ↔ 0xC0 ≤ x.toNat ∧ x.toNat < 0xE0) ∧
    (x &&& 0xF0 = 0xE0 ↔ 0xE0 ≤ x.toNat ∧ x.toNat < 0xF0) ∧
    (x &&& 0xF8 = 0xF0 ↔ 0xF0 ≤ x.toNat ∧ x.toNat < 0xF8)) (by decide +kernel) x

theorem toNat_bits (x : UInt8) : (continuation x).toNat = x.toNat % 64 ∧
    (x &&& 0x1F).toUInt32.toNat = x.toNat % 32 ∧ (x &&& 0xF).toUInt32.toNat = x.toNat % 16 ∧
    (x &&& 0x7).toUInt32.toNat = x.toNat % 8 := by
  simp only [continuation, UInt8.toNat_toUInt32]
  exact toNat_mask x

variable {a b c d : UInt8} {r : List UInt8}

theorem decode_one (ha : a.toNat < 0x80) : decodeUtf8Char (a :: r) = (a.toUInt32, 1) := by
  have hfirst : charAt (a :: r) 0 = a := rfl
  unfold decodeUtf8Char
  dsimp only
  rw [hfirst, if_pos ((lead_spec a).1.mpr ha)]

theorem decode_two (ha : 0xC0 ≤ a.toNat)
    (ha' : a.toNat < 0xE0) : (decodeUtf8Char (a :: b :: r)).2 = 2 ∧
    (decodeUtf8Char (a :: b :: r)).1.toNat = 64 * (a.toNat % 32) + b.toNat % 64 := by
  obtain ⟨hone, htwo, -⟩ := lead_spec a
  have hfirst : charAt (a :: b :: r) 0 = a := rfl
  have hread : decodeUtf8Char (a :: b :: r) =
    (((a &&& 0x1F).toUInt32 <<< UInt32.ofNat 6) ||| continuation b, 2) := by
    unfold decodeUtf8Char
    dsimp only
    rw [hfirst, if_neg (by rw [hone]; omega), if_pos (htwo.mpr ⟨ha, ha'⟩)]
    rfl
  have hlow := (toNat_bits b).1
  have hhigh := (toNat_bits a).2.1
  have hshift := toNat_shiftLeft 6 (by decide) (by rw [hhigh]; omega)
  rw [hhigh] at hshift
  have hlast := toNat_or 6 _ hshift (hlow.trans_lt (by omega))
  rw [hshift, hlow] at hlast
  rw [hread]
  exact ⟨rfl, hlast⟩

theorem decode_three (ha : 0xE0 ≤ a.toNat) (ha' : a.toNat < 0xF0) :
    (decodeUtf8Char (a :: b :: c :: r)).2 = 3 ∧ (decodeUtf8Char (a :: b :: c :: r)).1.toNat =
      4096 * (a.toNat % 16) + 64 * (b.toNat % 64) + c.toNat % 64 := by
  obtain ⟨hone, htwo, hthree, -⟩ := lead_spec a
  have hfirst : charAt (a :: b :: c :: r) 0 = a := rfl
  have hread : decodeUtf8Char (a :: b :: c :: r) = (((a &&& 0xF).toUInt32 <<< UInt32.ofNat 12) |||
      (continuation b <<< UInt32.ofNat 6) ||| continuation c, 3) := by
    unfold decodeUtf8Char
    dsimp only
    rw [hfirst, if_neg (by rw [hone]; omega), if_neg (by rw [htwo]; omega),
      if_pos (hthree.mpr ⟨ha, ha'⟩)]
    rfl
  have hlow := (toNat_bits c).1
  have hmid := (toNat_bits b).1
  have hhigh := (toNat_bits a).2.2.1
  have hshift := toNat_shiftLeft 12 (by decide) (by rw [hhigh]; omega)
  have hshift' := toNat_shiftLeft 6 (by decide) (by rw [hmid]; omega)
  rw [hhigh] at hshift
  rw [hmid] at hshift'
  have hor := toNat_or 12 _ hshift (by rw [hshift']; omega)
  rw [hshift, hshift'] at hor
  have hlast := toNat_or 6 (64 * (a.toNat % 16) + b.toNat % 64) (hor.trans (by omega))
    (hlow.trans_lt (by omega))
  rw [hor, hlow] at hlast
  rw [hread]
  exact ⟨rfl, hlast⟩

theorem decode_four (ha : 0xF0 ≤ a.toNat) (ha' : a.toNat < 0xF8) :
    (decodeUtf8Char (a :: b :: c :: d :: r)).2 = 4 ∧
      (decodeUtf8Char (a :: b :: c :: d :: r)).1.toNat =
      262144 * (a.toNat % 8) + 4096 * (b.toNat % 64) + 64 * (c.toNat % 64) + d.toNat % 64 := by
  obtain ⟨hone, htwo, hthree, hfour⟩ := lead_spec a
  have hfirst : charAt (a :: b :: c :: d :: r) 0 = a := rfl
  have hread : decodeUtf8Char (a :: b :: c :: d :: r) =
    (((a &&& 0x7).toUInt32 <<< UInt32.ofNat 18) |||
      (continuation b <<< UInt32.ofNat 12) ||| (continuation c <<< UInt32.ofNat 6) |||
        continuation d, 4) := by
    unfold decodeUtf8Char
    dsimp only
    rw [hfirst, if_neg (by rw [hone]; omega), if_neg (by rw [htwo]; omega),
      if_neg (by rw [hthree]; omega),
      if_pos (hfour.mpr ⟨ha, ha'⟩)]
    rfl
  have hlow := (toNat_bits d).1
  have hmid := (toNat_bits c).1
  have hmid' := (toNat_bits b).1
  have hhigh := (toNat_bits a).2.2.2
  have hshift := toNat_shiftLeft 18 (by decide) (by rw [hhigh]; omega)
  have hshift' := toNat_shiftLeft 12 (by decide) (by rw [hmid']; omega)
  have hshift'' := toNat_shiftLeft 6 (by decide) (by rw [hmid]; omega)
  rw [hhigh] at hshift
  rw [hmid'] at hshift'
  rw [hmid] at hshift''
  have hor := toNat_or 18 _ hshift (by rw [hshift']; omega)
  rw [hshift, hshift'] at hor
  have hor' := toNat_or 12 (64 * (a.toNat % 8) + b.toNat % 64) (hor.trans (by omega))
    (by rw [hshift'']; omega)
  rw [hor, hshift''] at hor'
  have hlast := toNat_or 6 (4096 * (a.toNat % 8) + 64 * (b.toNat % 64) + c.toNat % 64)
    (hor'.trans (by omega))
    (hlow.trans_lt (by omega))
  rw [hor', hlow] at hlast
  rw [hread]
  exact ⟨rfl, hlast⟩

theorem decode_invalid (ha : 0xF8 ≤ a.toNat) : (decodeUtf8Char (a :: r)).2 = 1 := by
  obtain ⟨hone, htwo, hthree, hfour⟩ := lead_spec a
  have hfirst : charAt (a :: r) 0 = a := rfl
  unfold decodeUtf8Char
  dsimp only
  rw [hfirst, if_neg (by rw [hone]; omega), if_neg (by rw [htwo]; omega),
    if_neg (by rw [hthree]; omega),
    if_neg (by rw [hfour]; omega)]

/-! ## What has been printed -/

/-- **What is printed is read back, and the pointer moved behind it.** Kind: P -/
theorem decode_encode {chr : UInt32} {s : List UInt8} (h : encodeUtf8 chr = some s)
    (r : List UInt8) :
    decodeUtf8Char (s ++ r) = (chr, s.length) := by
  have hlow : ∀ n : ℕ, n < 64 → (octet (n + 0x80)).toNat % 64 = n := by
    intro n hn
    rw [toNat_octet (by omega)]
    omega
  rcases encodeUtf8_cases chr with ⟨h1, henc⟩ | ⟨h1, h2, henc⟩ | ⟨h1, h2, henc⟩ |
    ⟨h1, h2, henc⟩ | ⟨-, henc⟩ <;>
    rw [henc] at h
  · obtain rfl := Option.some.inj h
    have hoctet := toNat_octet (by omega : chr.toNat < 256)
    rw [List.singleton_append, decode_one (by rw [hoctet]; exact h1)]
    refine Prod.ext (Iff.mp UInt32.toNat_inj ?_) rfl
    rw [UInt8.toNat_toUInt32, hoctet]
  · obtain rfl := Option.some.inj h
    have hoctet := toNat_octet (by omega : chr.toNat / 64 + 0xC0 < 256)
    obtain ⟨hlen, hread⟩ := @decode_two (octet (chr.toNat / 64 + 0xC0))
      (octet (chr.toNat % 64 + 0x80)) r
      (by omega) (by omega)
    refine Prod.ext (Iff.mp UInt32.toNat_inj (hread.trans ?_)) hlen
    rw [hoctet, hlow _ (by omega)]
    change _ = chr.toNat
    omega
  · obtain rfl := Option.some.inj h
    have hoctet := toNat_octet (by omega : chr.toNat / 4096 + 0xE0 < 256)
    obtain ⟨hlen, hread⟩ := @decode_three (octet (chr.toNat / 4096 + 0xE0))
      (octet (chr.toNat / 64 % 64 + 0x80))
      (octet (chr.toNat % 64 + 0x80)) r (by omega) (by omega)
    refine Prod.ext (Iff.mp UInt32.toNat_inj (hread.trans ?_)) hlen
    rw [hoctet, hlow _ (by omega), hlow _ (by omega)]
    change _ = chr.toNat
    omega
  · obtain rfl := Option.some.inj h
    have hoctet := toNat_octet (by omega : chr.toNat / 262144 + 0xF0 < 256)
    obtain ⟨hlen, hread⟩ := @decode_four (octet (chr.toNat / 262144 + 0xF0))
      (octet (chr.toNat / 4096 % 64 + 0x80)) (octet (chr.toNat / 64 % 64 + 0x80))
        (octet (chr.toNat % 64 + 0x80)) r
      (by omega) (by omega)
    refine Prod.ext (Iff.mp UInt32.toNat_inj (hread.trans ?_)) hlen
    rw [hoctet, hlow _ (by omega), hlow _ (by omega), hlow _ (by omega)]
    change _ = chr.toNat
    omega
  · cases h

end CxyCompiler.Core
