import CxyCompiler.Stdlib.YamlParser

/-!
# Fuel of the YAML parser

* `Outcome.Extends`: what a result becomes with more fuel.
* `CallsExtend`: each function of the parser, with one unit of fuel more.
* **`parse_mono`**: a result other than that the fuel runs out is the result with any more fuel.
-/

namespace CxyCompiler.Stdlib.Yaml

open CxyCompiler.Lib

variable {signed : Bool}

namespace Outcome

variable {α β : Type}

/-- The result `r'` with more fuel than `r` had. -/
def Extends (r' r : Outcome α) : Prop := r = .outOfFuel ∨ r' = r

theorem Extends.refl (r : Outcome α) : r.Extends r := .inr rfl

theorem Extends.ofNone (r : Outcome α) : r.Extends .outOfFuel := .inl rfl

theorem Extends.bind {r' r : Outcome α} {f' f : α → Outcome β} (hr : r'.Extends r)
    (hf : ∀ a, (f' a).Extends (f a)) : (r'.bind f').Extends (r.bind f) := by
  rcases hr with rfl | rfl
  · exact .ofNone _
  · cases r' with
    | done a => exact hf a
    | raised msg => exact .refl _
    | aborted => exact .refl _
    | outOfFuel => exact .refl _

theorem Extends.after {r : Outcome α} {f' f : α → Outcome β}
    (hf : ∀ a, (f' a).Extends (f a)) : (r.bind f').Extends (r.bind f) :=
  (Extends.refl r).bind hf

end Outcome

/-! ## One unit of fuel more -/

theorem skipWhileNewline_extends : ∀ (n : ℕ) (p : Parser),
    (p.skipWhileNewline signed (n + 1)).Extends (p.skipWhileNewline signed n)
  | 0, _ => .ofNone _
  | n + 1, p => by
      rw [Parser.skipWhileNewline, Parser.skipWhileNewline]
      split
      · exact .after (skipWhileNewline_extends n)
      · exact .refl _

theorem skipNewlines_extends (n : ℕ) (marker : Token) (p : Parser) :
    (p.skipNewlines signed (n + 1) marker).Extends (p.skipNewlines signed n marker) := by
  unfold Parser.skipNewlines
  split
  · exact .after (skipWhileNewline_extends n)
  · exact skipWhileNewline_extends n p

theorem afterEntry_extends {isNested listItem first : Bool} {obj : List (Bytes × Value)}
    {again' again : Bool → Parser → Outcome (Value × Parser)}
    (h : ∀ first p, (again' first p).Extends (again first p)) (p : Parser) :
    (afterEntry signed isNested listItem first obj again' p).Extends
      (afterEntry signed isNested listItem first obj again p) := by
  unfold afterEntry
  split
  · exact .after fun p => .after (h false)
  · refine .after fun p => ?_
    split
    · exact .refl _
    · exact h first p
  · exact .refl _
  · exact .refl _

theorem afterItem_extends {arr : List Value} {again' again : Parser → Outcome (Value × Parser)}
    (h : ∀ p, (again' p).Extends (again p)) (p : Parser) :
    (afterItem signed arr again' p).Extends (afterItem signed arr again p) := by
  unfold afterItem
  split
  · exact .after h
  · exact .refl _
  · exact .refl _
  · exact h p
  · exact .refl _

/-- The functions of the parser with `n + 1` units of fuel, and with `n`. -/
structure CallsExtend (signed : Bool) (n : ℕ) : Prop where
  value : ∀ p, (parseValue signed (n + 1) p).Extends (parseValue signed n p)
  actual : ∀ p, (parseActual signed (n + 1) p).Extends (parseActual signed n p)
  object : ∀ isNested listItem first obj p,
    (parseObject signed (n + 1) isNested listItem first obj p).Extends
      (parseObject signed n isNested listItem first obj p)
  array : ∀ arr p, (parseArray signed (n + 1) arr p).Extends (parseArray signed n arr p)
  item : ∀ p, (parseItem signed (n + 1) p).Extends (parseItem signed n p)

namespace CallsExtend

variable {n : ℕ}

theorem value_succ (h : CallsExtend signed n) (p : Parser) :
    (parseValue signed (n + 2) p).Extends (parseValue signed (n + 1) p) := by
  rw [parseValue, parseValue]
  refine .after fun ⟨anchor, p⟩ => ?_
  dsimp only
  split
  · exact .refl _
  · exact (h.actual p).bind fun r => .refl _

theorem actual_succ (h : CallsExtend signed n) (p : Parser) :
    (parseActual signed (n + 2) p).Extends (parseActual signed (n + 1) p) := by
  rw [parseActual, parseActual]
  split
  · split
    · exact h.object _ _ _ _ p
    · exact .refl _
  all_goals try exact .refl _
  · refine .after fun p => ?_
    split
    · exact h.array _ p
    · exact h.object _ _ _ _ p
  · exact h.array _ p
  · exact .after h.value

theorem object_succ (h : CallsExtend signed n) (isNested listItem first : Bool)
    (obj : List (Bytes × Value)) (p : Parser) :
    (parseObject signed (n + 2) isNested listItem first obj p).Extends
      (parseObject signed (n + 1) isNested listItem first obj p) := by
  rw [parseObject, parseObject]
  split
  · refine .after fun p => ?_
    split
    · exact .refl _
    · refine .after fun p => (h.value p).bind fun r => .after fun obj => ?_
      exact afterEntry_extends (fun first p => h.object _ _ first obj p) r.2
  · exact .refl _

theorem array_succ (h : CallsExtend signed n) (arr : List Value) (p : Parser) :
    (parseArray signed (n + 2) arr p).Extends (parseArray signed (n + 1) arr p) := by
  rw [parseArray, parseArray]
  split
  · refine .after fun p => (h.item p).bind fun r => ?_
    exact afterItem_extends (fun p => h.array _ p) r.2
  · exact .refl _

theorem item_succ (h : CallsExtend signed n) (p : Parser) :
    (parseItem signed (n + 2) p).Extends (parseItem signed (n + 1) p) := by
  rw [parseItem, parseItem]
  split
  · split
    · exact h.object _ _ _ _ p
    · exact h.value p
  · exact h.value p

end CallsExtend

/-- Each function calls the others with one unit less, so the induction is on the fuel. Kind: L -/
theorem callsExtend : ∀ n, CallsExtend signed n
  | 0 => ⟨fun _ => .ofNone _, fun _ => .ofNone _, fun _ _ _ _ _ => .ofNone _, fun _ _ => .ofNone _,
      fun _ => .ofNone _⟩
  | n + 1 =>
      have h := callsExtend n
      ⟨h.value_succ, h.actual_succ, h.object_succ, h.array_succ, h.item_succ⟩

theorem parseDocuments_extends : ∀ (n : ℕ) (docs : List Value) (p : Parser),
    (parseDocuments signed (n + 1) docs p).Extends (parseDocuments signed n docs p)
  | 0, _, _ => .ofNone _
  | n + 1, docs, p => by
      rw [parseDocuments, parseDocuments]
      split
      · refine (skipNewlines_extends n _ _).bind fun p => ?_
        refine ((callsExtend n).value p).bind fun r => ?_
        exact (skipNewlines_extends n _ _).bind fun p => parseDocuments_extends n _ p
      · exact .refl _

theorem parse_extends (n : ℕ) (input : Bytes) :
    (parse signed (n + 1) input).Extends (parse signed n input) := by
  unfold parse
  refine .after fun p => (skipNewlines_extends n _ p).bind fun p => ?_
  refine ((callsExtend n).value p).bind fun r => (skipNewlines_extends n _ _).bind fun p => ?_
  split
  · exact .refl _
  · exact parseDocuments_extends n _ p

/-- **More fuel does not change the result**, unless the fuel runs out. Kind: P -/
theorem parse_mono {n m : ℕ} (hnm : n ≤ m) {input : Bytes}
    (h : parse signed n input ≠ .outOfFuel) : parse signed m input = parse signed n input := by
  induction m, hnm using Nat.le_induction with
  | base => rfl
  | succ m _ ih =>
      rcases @parse_extends signed m input with hm | hm
      · exact absurd (ih ▸ hm) h
      · rw [hm, ih]

/-- A result other than `v` is not `v` with any more fuel. Kind: L -/
theorem parse_other {n : ℕ} {input : Bytes} {v : Value}
    (h : parse signed n input ≠ .outOfFuel) (hv : parse signed n input ≠ .done v) :
    ¬ ∃ m, ∀ fuel, m ≤ fuel → parse signed fuel input = .done v := by
  rintro ⟨m, hm⟩
  have hbig := hm (max m n) (le_max_left _ _)
  rw [parse_mono (le_max_right m n) h] at hbig
  exact hv hbig

def Outcome.isRaised {α : Type} : Outcome α → Bool
  | .raised _ => true
  | _ => false

/-- An exception is no value with any fuel. Kind: L -/
theorem parse_raised {n : ℕ} {input : Bytes} (h : (parse signed n input).isRaised = true)
    (v : Value) : ¬ ∃ m, ∀ fuel, m ≤ fuel → parse signed fuel input = .done v := by
  refine parse_other (n := n) ?_ ?_ <;>
  · intro he
    rw [he] at h
    cases h

end CxyCompiler.Stdlib.Yaml
