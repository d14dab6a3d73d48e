import Mathlib.Algebra.Order.Ring.Nat
import Mathlib.Data.List.Basic
import Mathlib.Data.UInt

/-!
# Texts in UTF-8

* `text` — the octets of a list of characters.
* `encode_cases` — the octets of a character, for the four lengths.
* `toNat_or`, `toNat_shiftLeft` — words put together from pieces that do not meet.
* `drop_ascii` — **behind octets of ASCII at its start, a text goes on with a character**.
-/

namespace CxyCompiler.Lib.Utf8

/-! ## Words from pieces -/

theorem toNat_or {x y : UInt32} (k q : ℕ) (hx : x.toNat = 2 ^ k * q) (hy : y.toNat < 2 ^ k) :
    (x ||| y).toNat = x.toNat + y.toNat := by
  rw [UInt32.toNat_or, hx, Nat.two_pow_add_eq_or_of_lt hy]

/-- A word that is shifted and loses no bit. Kind: L -/
theorem toNat_shiftLeft {x : UInt32} (k : ℕ) (hk : k < 32) (hx : 2 ^ k * x.toNat < 2 ^ 32) :
    (x <<< UInt32.ofNat k).toNat = 2 ^ k * x.toNat := by
  have hofNat : (UInt32.ofNat k).toNat = k := by
    rw [UInt32.toNat_ofNat']
    exact Nat.mod_eq_of_lt (by omega)
  rw [UInt32.toNat_shiftLeft, hofNat, Nat.mod_eq_of_lt hk, Nat.shiftLeft_eq, Nat.mul_comm]
  exact Nat.mod_eq_of_lt hx

theorem toNat_low (x : UInt32) : (x &&& 0x3F).toNat = x.toNat % 64 := by
  rw [UInt32.toNat_and]
  exact Nat.and_two_pow_sub_one_eq_mod x.toNat 6

/-! ## Characters -/

variable {c : Char} {cs : List Char}

def text (cs : List Char) : List UInt8 := cs.flatMap String.utf8EncodeChar

theorem text_cons : text (c :: cs) = String.utf8EncodeChar c ++ text cs := rfl

/-- The octet with this number. -/
def octet (n : ℕ) : UInt8 := UInt8.ofNat n

theorem toNat_octet {n : ℕ} (h : n < 256) : (octet n).toNat = n := by
  rw [octet, UInt8.toNat_ofNat']
  exact Nat.mod_eq_of_lt h

/-- **The octets of a character.** Kind: L -/
theorem encode_cases (c : Char) :
    (c.toNat < 0x80 ∧ String.utf8EncodeChar c = [octet c.toNat]) ∨
    (0x80 ≤ c.toNat ∧ c.toNat < 0x800 ∧
      String.utf8EncodeChar c = [octet (c.toNat / 64 + 0xC0), octet (c.toNat % 64 + 0x80)]) ∨
    (0x800 ≤ c.toNat ∧ c.toNat < 0x10000 ∧
      String.utf8EncodeChar c = [octet (c.toNat / 4096 + 0xE0), octet (c.toNat / 64 % 64 + 0x80),
        octet (c.toNat % 64 + 0x80)]) ∨
    (0x10000 ≤ c.toNat ∧ c.toNat < 0x110000 ∧
      String.utf8EncodeChar c = [octet (c.toNat / 262144 + 0xF0),
        octet (c.toNat / 4096 % 64 + 0x80), octet (c.toNat / 64 % 64 + 0x80),
        octet (c.toNat % 64 + 0x80)]) := by
  have hbound : c.toNat < 0x110000 := by
    rcases c.valid with h | ⟨-, h⟩
    · exact Nat.lt_trans h (by decide)
    · exact h
  unfold String.utf8EncodeChar
  change _ ∨ _ ∨ _ ∨ _
  dsimp only
  rw [show c.val.toNat = c.toNat from rfl]
  by_cases h1 : c.toNat ≤ 0x7F
  · left
    rw [if_pos h1]
    exact ⟨by omega, rfl⟩
  · rw [if_neg h1]
    by_cases h2 : c.toNat ≤ 0x7FF
    · right; left
      rw [if_pos h2, Nat.mod_eq_of_lt (by omega : c.toNat / 64 < 0x20)]
      exact ⟨by omega, by omega, rfl⟩
    · rw [if_neg h2]
      by_cases h3 : c.toNat ≤ 0xFFFF
      · right; right; left
        rw [if_pos h3, Nat.mod_eq_of_lt (by omega : c.toNat / 4096 < 0x10)]
        exact ⟨by omega, by omega, rfl⟩
      · right; right; right
        rw [if_neg h3, Nat.mod_eq_of_lt (by omega : c.toNat / 262144 < 0x08)]
        exact ⟨by omega, by omega, rfl⟩

theorem encode_ascii (h : c.toNat < 0x80) : String.utf8EncodeChar c = [octet c.toNat] := by
  rcases encode_cases c with ⟨-, henc⟩ | ⟨h2, -⟩ | ⟨h3, -⟩ | ⟨h4, -⟩
  · exact henc
  all_goals omega

/-- Another character has no octet of ASCII. Kind: L -/
theorem encode_high (h : 0x80 ≤ c.toNat) : ∀ b ∈ String.utf8EncodeChar c, 0x80 ≤ b.toNat := by
  have hhigh : ∀ n, n < 64 → 0x80 ≤ (octet (n + 0x80)).toNat := by
    intro n hn
    rw [toNat_octet (by omega)]
    omega
  have hfirst : ∀ n k, k + n < 256 → 0x80 ≤ n → 0x80 ≤ (octet (k + n)).toNat := by
    intro n k hlt hn
    rw [toNat_octet hlt]
    omega
  rcases encode_cases c with ⟨hlow, -⟩ | ⟨-, hlt, henc⟩ | ⟨-, hlt, henc⟩ | ⟨-, hlt, henc⟩
  · omega
  all_goals
    rw [henc]
    simp only [List.forall_mem_cons]
  · exact ⟨hfirst _ _ (by omega) (by omega), hhigh _ (by omega), List.forall_mem_nil _⟩
  · exact ⟨hfirst _ _ (by omega) (by omega), hhigh _ (by omega), hhigh _ (by omega),
      List.forall_mem_nil _⟩
  · exact ⟨hfirst _ _ (by omega) (by omega), hhigh _ (by omega), hhigh _ (by omega),
      hhigh _ (by omega), List.forall_mem_nil _⟩

theorem encode_ne_nil (c : Char) : String.utf8EncodeChar c ≠ [] := by
  rcases encode_cases c with ⟨-, henc⟩ | ⟨-, -, henc⟩ | ⟨-, -, henc⟩ | ⟨-, -, henc⟩ <;>
    exact henc ▸ List.cons_ne_nil _ _

/-- **Behind octets of ASCII at its start, a text goes on with a character.** Kind: L -/
theorem drop_ascii : ∀ (xs : List UInt8) {cs : List Char} {r : List UInt8}, text cs = xs ++ r →
    (∀ x ∈ xs, x.toNat < 0x80) → ∃ es, text es = r := by
  intro xs
  induction xs with
  | nil => exact fun h _ => ⟨_, h⟩
  | cons x xs ih =>
      intro cs r h hascii
      obtain ⟨hx, hxs⟩ := List.forall_mem_cons.mp hascii
      cases cs with
      | nil => cases h
      | cons c cs =>
          rw [text_cons] at h
          by_cases hc : c.toNat < 0x80
          · rw [encode_ascii hc] at h
            exact ih (List.cons.inj h).2 hxs
          · have hhigh := encode_high (Nat.not_lt.mp hc)
            cases henc : String.utf8EncodeChar c with
            | nil => exact absurd henc (encode_ne_nil c)
            | cons b bs =>
                rw [henc] at h hhigh
                obtain ⟨rfl, -⟩ := List.cons.inj h
                exact absurd (hhigh b List.mem_cons_self) (Nat.not_le.mpr hx)

end CxyCompiler.Lib.Utf8
