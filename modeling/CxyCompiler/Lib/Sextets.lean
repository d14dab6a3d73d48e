import CxyCompiler.Lib.Numeral

/-!
# Octets in groups of six bits

Three octets are four sextets; one octet at the end is two, and two octets are three, filled up with
zeros.

* `sextets`, `octets` — from octets to sextets and back.
* `octets_sextets` — **the octets are read back from their sextets**.
* `length_sextets` — how many there are.
-/

namespace CxyCompiler.Lib.Sextets

open CxyCompiler.Lib.Numeral (forall_byte)

/-! ## The parts of an octet -/

def first (a : UInt8) : UInt8 := a >>> 2

def second (a b : UInt8) : UInt8 := ((a &&& 3) <<< 4) ||| (b >>> 4)

def third (b c : UInt8) : UInt8 := ((b &&& 15) <<< 2) ||| (c >>> 6)

def fourth (c : UInt8) : UInt8 := c &&& 63

def join₁ (x y : UInt8) : UInt8 := (x <<< 2) ||| (y >>> 4)

def join₂ (y z : UInt8) : UInt8 := (y <<< 4) ||| (z >>> 2)

def join₃ (z w : UInt8) : UInt8 := (z <<< 6) ||| w

/-- The numbers of shifted and masked octets. Kind: L -/
theorem toNat_parts (a : UInt8) :
    (a >>> 2).toNat = a.toNat / 4 ∧ (a >>> 4).toNat = a.toNat / 16 ∧
    (a >>> 6).toNat = a.toNat / 64 ∧ ((a &&& 3) <<< 4).toNat = 2 ^ 4 * (a.toNat % 4) ∧
    ((a &&& 15) <<< 2).toNat = 2 ^ 2 * (a.toNat % 16) ∧ (a &&& 63).toNat = a.toNat % 64 ∧
    (a <<< 2).toNat = 2 ^ 2 * (a.toNat % 64) ∧ (a <<< 4).toNat = 2 ^ 4 * (a.toNat % 16) ∧
    (a <<< 6).toNat = 2 ^ 6 * (a.toNat % 4) :=
  forall_byte (p := fun a =>
    (a >>> 2).toNat = a.toNat / 4 ∧ (a >>> 4).toNat = a.toNat / 16 ∧
    (a >>> 6).toNat = a.toNat / 64 ∧ ((a &&& 3) <<< 4).toNat = 2 ^ 4 * (a.toNat % 4) ∧
    ((a &&& 15) <<< 2).toNat = 2 ^ 2 * (a.toNat % 16) ∧ (a &&& 63).toNat = a.toNat % 64 ∧
    (a <<< 2).toNat = 2 ^ 2 * (a.toNat % 64) ∧ (a <<< 4).toNat = 2 ^ 4 * (a.toNat % 16) ∧
    (a <<< 6).toNat = 2 ^ 6 * (a.toNat % 4)) (by decide +kernel) a

theorem toNat_or_of_lt {h l : UInt8} {i k : ℕ} (hh : h.toNat = 2 ^ i * k) (hl : l.toNat < 2 ^ i) :
    (h ||| l).toNat = 2 ^ i * k + l.toNat := by
  rw [UInt8.toNat_or, hh, Nat.two_pow_add_eq_or_of_lt hl]

theorem toNat_first (a : UInt8) : (first a).toNat = a.toNat / 4 := (toNat_parts a).1

theorem toNat_second (a b : UInt8) :
    (second a b).toNat = 2 ^ 4 * (a.toNat % 4) + b.toNat / 16 := by
  obtain ⟨-, -, -, ha, -⟩ := toNat_parts a
  obtain ⟨-, hb, -⟩ := toNat_parts b
  have hlt := b.toNat_lt
  rw [second, toNat_or_of_lt ha (by omega), hb]

theorem toNat_third (b c : UInt8) :
    (third b c).toNat = 2 ^ 2 * (b.toNat % 16) + c.toNat / 64 := by
  obtain ⟨-, -, -, -, hb, -⟩ := toNat_parts b
  obtain ⟨-, -, hc, -⟩ := toNat_parts c
  have hlt := c.toNat_lt
  rw [third, toNat_or_of_lt hb (by omega), hc]

theorem toNat_fourth (c : UInt8) : (fourth c).toNat = c.toNat % 64 :=
  (toNat_parts c).2.2.2.2.2.1

theorem join₁_first (a b : UInt8) : join₁ (first a) (second a b) = a := by
  obtain ⟨-, -, -, -, -, -, hx, -⟩ := toNat_parts (first a)
  obtain ⟨-, hy, -⟩ := toNat_parts (second a b)
  have ha := a.toNat_lt
  have hb := b.toNat_lt
  rw [toNat_first] at hx
  rw [toNat_second] at hy
  rw [← UInt8.toNat_inj, join₁, toNat_or_of_lt hx (by omega), hy]
  omega

theorem join₂_second (a b c : UInt8) : join₂ (second a b) (third b c) = b := by
  obtain ⟨-, -, -, -, -, -, -, hy, -⟩ := toNat_parts (second a b)
  obtain ⟨hz, -⟩ := toNat_parts (third b c)
  have hb := b.toNat_lt
  have hc := c.toNat_lt
  rw [toNat_second] at hy
  rw [toNat_third] at hz
  rw [← UInt8.toNat_inj, join₂, toNat_or_of_lt hy (by omega), hz]
  omega

theorem join₃_third (b c : UInt8) : join₃ (third b c) (fourth c) = c := by
  obtain ⟨-, -, -, -, -, -, -, -, hz⟩ := toNat_parts (third b c)
  have hw := toNat_fourth c
  have hc := c.toNat_lt
  rw [toNat_third] at hz
  rw [← UInt8.toNat_inj, join₃, toNat_or_of_lt hz (by omega), hw]
  omega

/-! ## Groups -/

def sextets : List UInt8 → List UInt8
  | a :: b :: c :: s => first a :: second a b :: third b c :: fourth c :: sextets s
  | [a, b] => [first a, second a b, third b 0]
  | [a] => [first a, second a 0]
  | [] => []

def octets : List UInt8 → List UInt8
  | x :: y :: z :: w :: s => join₁ x y :: join₂ y z :: join₃ z w :: octets s
  | [x, y, z] => [join₁ x y, join₂ y z]
  | [x, y] => [join₁ x y]
  | _ => []

theorem triples {motive : List UInt8 → Prop}
    (group : ∀ a b c s, motive s → motive (a :: b :: c :: s))
    (pair : ∀ a b, motive [a, b]) (single : ∀ a, motive [a]) (nil : motive []) : ∀ s, motive s
  | a :: b :: c :: s => group a b c s (triples group pair single nil s)
  | [a, b] => pair a b
  | [a] => single a
  | [] => nil

theorem quadruples {motive : List UInt8 → Prop}
    (group : ∀ x y z w s, motive s → motive (x :: y :: z :: w :: s))
    (triple : ∀ x y z, motive [x, y, z]) (pair : ∀ x y, motive [x, y]) (single : ∀ x, motive [x])
    (nil : motive []) : ∀ s, motive s
  | x :: y :: z :: w :: s => group x y z w s (quadruples group triple pair single nil s)
  | [x, y, z] => triple x y z
  | [x, y] => pair x y
  | [x] => single x
  | [] => nil

/-- **The octets are read back from their sextets.** Kind: P -/
theorem octets_sextets (s : List UInt8) : octets (sextets s) = s := by
  induction s using triples with
  | group a b c s ih => rw [sextets, octets, join₁_first, join₂_second, join₃_third, ih]
  | pair a b => rw [sextets, octets, join₁_first, join₂_second]
  | single a => rw [sextets, octets, join₁_first]
  | nil => rfl

theorem length_sextets (s : List UInt8) : (sextets s).length = (4 * s.length + 2) / 3 := by
  induction s using triples with
  | group a b c s ih =>
      rw [sextets]
      simp only [List.length_cons, ih]
      omega
  | pair a b => simp only [sextets, List.length_cons, List.length_nil]
  | single a => simp only [sextets, List.length_cons, List.length_nil]
  | nil => rfl

theorem first_lt (a : UInt8) : (first a).toNat < 64 := by
  have := a.toNat_lt
  rw [toNat_first]
  omega

theorem second_lt (a b : UInt8) : (second a b).toNat < 64 := by
  have := b.toNat_lt
  rw [toNat_second]
  omega

theorem third_lt (b c : UInt8) : (third b c).toNat < 64 := by
  have := c.toNat_lt
  rw [toNat_third]
  omega

theorem fourth_lt (c : UInt8) : (fourth c).toNat < 64 := by
  rw [toNat_fourth]
  exact Nat.mod_lt _ (by decide)

theorem sextets_lt (s : List UInt8) : ∀ x ∈ sextets s, x.toNat < 64 := by
  induction s using triples with
  | group a b c s ih =>
      simp only [sextets, List.forall_mem_cons]
      exact ⟨first_lt a, second_lt a b, third_lt b c, fourth_lt c, ih⟩
  | pair a b =>
      simp only [sextets, List.forall_mem_cons]
      exact ⟨first_lt a, second_lt a b, third_lt b 0, nofun⟩
  | single a =>
      simp only [sextets, List.forall_mem_cons]
      exact ⟨first_lt a, second_lt a 0, nofun⟩
  | nil => exact nofun

end CxyCompiler.Lib.Sextets
