import CxyCompiler.Middle.Mangle

/-!
# When mangled names are unique

* `decimal_split`, `printUtf8_split` — numbers and characters end where they end.
* `Good` — what a type must not be for its code to say all of it.
* `mangleType_split` — **two codes, each followed by something, are the codes of one type**; the
  induction is on the depth of the types.
* `makeMangledName_injective` — equal names have equal base names and equal types.
* `char_is_const` — a `char` before a type reads like a `const`.
-/

namespace CxyCompiler.Middle.Mangle

open CxyCompiler.Frontend

/-! ## Numbers and characters -/

def isDigit (b : UInt8) : Bool := 48 ≤ b && b ≤ 57

/-- A text that does not go on with a digit. -/
def NoDigit (u : List UInt8) : Prop := ∀ b ∈ u.head?, isDigit b = false

/-- Two runs that end where their property ends. Kind: L -/
theorem run_split {p : UInt8 → Bool} {l l' u v : List UInt8} (hl : ∀ b ∈ l, p b = true)
    (hl' : ∀ b ∈ l', p b = true) (hu : ∀ b ∈ u.head?, p b = false) (hv : ∀ b ∈ v.head?, p b = false)
    (h : l ++ u = l' ++ v) : l = l' ∧ u = v := by
  have hrun : ∀ {l u : List UInt8}, (∀ b ∈ l, p b = true) → (∀ b ∈ u.head?, p b = false) →
      (l ++ u).takeWhile p = l := by
    intro l u hl hu
    rw [List.takeWhile_append_of_pos hl]
    cases u with
    | nil => simp
    | cons b u => simp [hu b rfl]
  have hll : l = l' := by rw [← hrun hl hu, h, hrun hl' hv]
  subst hll
  exact ⟨rfl, List.append_cancel_left h⟩

theorem digit_lt {n d : ℕ} (hd : d ∈ if n = 0 then [0] else (Nat.digits 10 n).reverse) :
    d < 10 := by
  split_ifs at hd
  · rw [List.mem_singleton] at hd
    omega
  · exact Nat.digits_lt_base (by norm_num) (List.mem_reverse.mp hd)

/-- A number is printed with digits only. Kind: L -/
theorem isDigit_decimal {n : ℕ} : ∀ b ∈ decimal n, isDigit b = true := by
  intro b hb
  obtain ⟨d, hd, rfl⟩ := List.mem_map.mp hb
  have hlt := digit_lt hd
  interval_cases d <;> rfl

/-- A printed number tells which it is. Kind: L -/
theorem decimal_inj {n m : ℕ} (h : decimal n = decimal m) : n = m := by
  -- the digits are read back
  have hback : ∀ k : ℕ, (decimal k).map (fun b => b.toNat - 48) =
      if k = 0 then [0] else (Nat.digits 10 k).reverse := by
    intro k
    rw [decimal, List.map_map]
    conv_rhs => rw [← List.map_id (if k = 0 then [0] else (Nat.digits 10 k).reverse)]
    apply List.map_congr_left
    intro d hd
    have hlt := digit_lt hd
    interval_cases d <;> rfl
  have hdigits := (hback n).symm.trans ((congrArg _ h).trans (hback m))
  have hzero : ∀ k : ℕ, k ≠ 0 → (Nat.digits 10 k).reverse ≠ [0] := by
    intro k hk heq
    have hdig : Nat.digits 10 k = [0] := by simpa using congrArg List.reverse heq
    have := Nat.ofDigits_digits 10 k
    rw [hdig] at this
    simp at this
    omega
  by_cases hn : n = 0
  · by_cases hm : m = 0
    · rw [hn, hm]
    · rw [if_pos hn, if_neg hm] at hdigits
      exact absurd hdigits.symm (hzero m hm)
  · by_cases hm : m = 0
    · rw [if_neg hn, if_pos hm] at hdigits
      exact absurd hdigits (hzero n hn)
    · rw [if_neg hn, if_neg hm, List.reverse_inj] at hdigits
      exact Nat.digits_inj_iff.mp hdigits

/-- **A number ends where its digits end.** Kind: P -/
theorem decimal_split {n m : ℕ} {u v : List UInt8} (hu : NoDigit u) (hv : NoDigit v)
    (h : decimal n ++ u = decimal m ++ v) : n = m ∧ u = v := by
  obtain ⟨heq, huv⟩ := run_split isDigit_decimal isDigit_decimal hu hv h
  exact ⟨decimal_inj heq, huv⟩

theorem decimal_head (n : ℕ) : ∃ b l, decimal n = b :: l ∧ isDigit b = true := by
  cases hd : decimal n with
  | nil =>
      rw [decimal, List.map_eq_nil_iff] at hd
      split_ifs at hd with hn
      rw [List.reverse_eq_nil_iff, Nat.digits_eq_nil_iff_eq_zero] at hd
      exact absurd hd hn
  | cons b l => exact ⟨b, l, rfl, isDigit_decimal b (by rw [hd]; exact List.mem_cons_self)⟩

/-- A signed number ends where no digit follows. Kind: L -/
theorem signedDecimal_split {y z : ℤ} {u v : List UInt8} (hu : NoDigit u) (hv : NoDigit v)
    (h : signedDecimal y ++ u = signedDecimal z ++ v) : y = z ∧ u = v := by
  have hminus : ∀ n : ℕ, ∀ w w' : List UInt8, byte '-' :: w ≠ decimal n ++ w' := by
    intro n w w' heq
    obtain ⟨b, l, hb, hdigit⟩ := decimal_head n
    rw [hb, List.cons_append, List.cons.injEq] at heq
    rw [← heq.1] at hdigit
    exact absurd hdigit (by decide)
  unfold signedDecimal at h
  split_ifs at h with hy hz hz
  · obtain ⟨heq, huv⟩ := decimal_split hu hv (List.cons.inj h).2
    exact ⟨by omega, huv⟩
  · exact absurd h (hminus _ _ _)
  · exact absurd h.symm (hminus _ _ _)
  · obtain ⟨heq, huv⟩ := decimal_split hu hv h
    exact ⟨by omega, huv⟩

/-- **A character ends where its first byte says**: what is printed is read back. Kind: P -/
theorem printUtf8_split {c d : UInt32} {s s' u v : List UInt8}
    (hc : Core.printUtf8 c false = some s)
    (hd : Core.printUtf8 d false = some s') (h : s ++ u = s' ++ v) : c = d ∧ u = v := by
  have hread := @Core.decode_encode c s hc u
  rw [h, @Core.decode_encode d s' hd v] at hread
  obtain ⟨hchr, hlen⟩ := Prod.mk.injEq .. ▸ hread
  exact ⟨hchr.symm, (List.append_inj h hlen.symm).2⟩

/-! ## The codes -/

/-- The kinds of code. -/
inductive Shape where
  | primitive | string | array | tuple | union | func | pointer | reference | literal | named
  deriving DecidableEq

def shape : Body → Shape
  | .primitive _ => .primitive
  | .string => .string
  | .array _ _ => .array
  | .tuple _ => .tuple
  | .union _ => .union
  | .func _ _ _ => .func
  | .pointer _ _ => .pointer
  | .reference _ => .reference
  | .literal _ => .literal
  | _ => .named

/-- The kind of the code that starts with a letter. -/
def shapeOfLetter (b : UInt8) : Option Shape :=
  if b ∈ bytes ['b', 'w', 'c', 'u', 'i', 'f'] then some .primitive
  else if b = byte 's' then some .string
  else if b = byte 'A' then some .array
  else if b = byte 'T' then some .tuple
  else if b = byte 'U' then some .union
  else if b = byte 'F' then some .func
  else if b = byte 'P' then some .pointer
  else if b = byte 'R' then some .reference
  else if b = byte 'L' then some .literal
  else if b = byte 'Z' then some .named
  else none

section

variable {h : Heap} {rec : Addr → Option (List UInt8)} {t : Ty}

/-- One constructor for each way through the switch of `mangleType`. -/
inductive Coded (h : Heap) (rec : Addr → Option (List UInt8)) (t : Ty) : List UInt8 → Prop
  | primitive {id : UInt32} {s : List Char} (hbody : t.body = .primitive id)
      (hs : primitiveCode id = some s) : Coded h rec t (bytes s)
  | string (hbody : t.body = .string) : Coded h rec t [byte 's']
  | array {len : UInt64} {a : Addr} {c : List UInt8} (hbody : t.body = .array len a)
      (hc : rec a = some c) : Coded h rec t (byte 'A' :: (decimal len.toNat ++ c))
  | tuple {as : List Addr} {c : List UInt8} (hbody : t.body = .tuple as)
      (hc : mangleTypes rec as = some c) : Coded h rec t (byte 'T' :: (c ++ [byte '_']))
  | bigUnion {as : List Addr} (hbody : t.body = .union as) (hlen : 3 < as.length) :
      Coded h rec t (byte 'U' :: (decimal t.index ++ [byte '_']))
  | union {as : List Addr} {c : List UInt8} (hbody : t.body = .union as) (hlen : ¬ 3 < as.length)
      (hc : mangleTypes rec as = some c) : Coded h rec t (byte 'U' :: byte '_' :: (c ++ [byte '_']))
  | func {as : List Addr} {a : Addr} {d : Option FuncDecl} {c : List UInt8}
      (hbody : t.body = .func as a d) (hc : mangleTypes rec (as ++ [a]) = some c) :
      Coded h rec t (byte 'F' :: (c ++ [byte '_']))
  | pointer {a : Addr} {isAllocated : Bool} {c : List UInt8}
    (hbody : t.body = .pointer a isAllocated)
      (hc : rec a = some c) : Coded h rec t (byte 'P' :: c)
  | reference {a : Addr} {c : List UInt8} (hbody : t.body = .reference a) (hc : rec a = some c) :
      Coded h rec t (byte 'R' :: c)
  | literal {v : Lit} {c : List UInt8} (hbody : t.body = .literal v)
      (hc : mangleAstNode t.index v = some c) : Coded h rec t c
  | named (hbody : shape t.body = .named) : Coded h rec t
    (byte 'Z' :: (qualified h t ++ [byte '_']))

theorem mangleTypes_append (as : List Addr) (a : Addr) : mangleTypes rec (as ++ [a]) =
    (mangleTypes rec as).bind fun c => (rec a).map (c ++ ·) := by
  induction as with
  | nil =>
      cases ha : rec a <;> simp [mangleTypes, ha]
  | cons b bs ih =>
      rw [List.cons_append, mangleTypes, mangleTypes, ih]
      cases rec b with
      | none => rfl
      | some cb =>
          cases mangleTypes rec bs with
          | none => rfl
          | some cbs => cases rec a <;> simp

/-- Every code is made by one of the ways through the switch. Kind: L -/
theorem coded_of_mangleBody {c : List UInt8} (hc : mangleBody h rec t = some c) :
    Coded h rec t c := by
  unfold mangleBody at hc
  cases hbody : t.body with
  | primitive id =>
      rw [hbody] at hc
      obtain ⟨s, hs, rfl⟩ := Option.map_eq_some_iff.mp hc
      exact .primitive hbody hs
  | string =>
      rw [hbody] at hc
      obtain rfl := Option.some.inj hc
      exact .string hbody
  | array len a =>
      rw [hbody] at hc
      obtain ⟨c', hc', hc⟩ := Option.bind_eq_some_iff.mp hc
      obtain rfl := Option.some.inj hc
      exact .array hbody hc'
  | tuple as =>
      rw [hbody] at hc
      obtain ⟨c', hc', hc⟩ := Option.bind_eq_some_iff.mp hc
      obtain rfl := Option.some.inj hc
      exact .tuple hbody hc'
  | union as =>
      rw [hbody] at hc
      dsimp only at hc
      split_ifs at hc with hlen
      · obtain rfl := Option.some.inj hc
        exact .bigUnion hbody hlen
      · obtain ⟨c', hc', hc⟩ := Option.bind_eq_some_iff.mp hc
        obtain rfl := Option.some.inj hc
        exact .union hbody hlen hc'
  | func as a d =>
      rw [hbody] at hc
      obtain ⟨c', hc', hc⟩ := Option.bind_eq_some_iff.mp hc
      obtain ⟨c'', hc'', hc⟩ := Option.bind_eq_some_iff.mp hc
      obtain rfl := Option.some.inj hc
      refine .func hbody ?_
      rw [mangleTypes_append, hc', hc'']
      rfl
  | pointer a isAllocated =>
      rw [hbody] at hc
      obtain ⟨c', hc', hc⟩ := Option.bind_eq_some_iff.mp hc
      obtain rfl := Option.some.inj hc
      exact .pointer hbody hc'
  | reference a =>
      rw [hbody] at hc
      obtain ⟨c', hc', hc⟩ := Option.bind_eq_some_iff.mp hc
      obtain rfl := Option.some.inj hc
      exact .reference hbody hc'
  | literal v =>
      rw [hbody] at hc
      exact .literal hbody hc
  | _ =>
      rw [hbody] at hc
      obtain rfl := Option.some.inj hc
      exact .named (hbody ▸ rfl)

/-- The first letter says what kind of code it is. Kind: L -/
theorem mangleAstNode_head {idx : ℕ} {v : Lit} {c : List UInt8}
    (hc : mangleAstNode idx v = some c) :
    ∃ c', c = byte 'L' :: c' := by
  cases v with
  | char value =>
      obtain ⟨s, -, rfl⟩ := Option.map_eq_some_iff.mp hc
      exact ⟨_, rfl⟩
  | integer isNegative uValue =>
      obtain rfl := Option.some.inj hc
      cases isNegative <;> exact ⟨_, rfl⟩
  | null | bool _ | float _ | string _ =>
      obtain rfl := Option.some.inj hc
      exact ⟨_, rfl⟩
  | _ => simp [mangleAstNode] at hc

/-- No primitive code begins another, and only that of `char` begins with `c`. Kind: L -/
theorem primitiveNames_spec : (∀ i j : Fin primitiveNames.length,
    bytes primitiveNames[i] <+: bytes primitiveNames[j] → i = j) ∧
    ∀ i : Fin primitiveNames.length, ∃ b ∈ (bytes primitiveNames[i]).head?,
      shapeOfLetter b = some .primitive ∧
        (b = byte 'c' → i.val = 2 ∧ (bytes primitiveNames[i]).tail = []) := by
  decide

theorem primitiveCode_eq_some {id : UInt32} {s : List Char} (hs : primitiveCode id = some s) :
    ∃ i : Fin primitiveNames.length, i.val = id.toNat ∧ primitiveNames[i] = s := by
  obtain ⟨hlt, heq⟩ := List.getElem?_eq_some_iff.mp hs
  exact ⟨⟨id.toNat, hlt⟩, rfl, heq⟩

/-- The code of a primitive type begins with one of its letters. Kind: L -/
theorem primitiveCode_head {id : UInt32} {s : List Char} (hs : primitiveCode id = some s) :
    ∃ b l, bytes s = b :: l ∧ shapeOfLetter b = some .primitive ∧
      (b = byte 'c' → id = 2 ∧ l = []) := by
  obtain ⟨i, hi, rfl⟩ := primitiveCode_eq_some hs
  obtain ⟨b, hb, hshape, hchar⟩ := primitiveNames_spec.2 i
  cases hcode : bytes primitiveNames[i] with
  | nil =>
      rw [hcode] at hb
      simp at hb
  | cons b' l =>
      rw [hcode] at hb hchar
      obtain rfl := Option.some.inj hb
      refine ⟨b', l, rfl, hshape, fun heq => ?_⟩
      obtain ⟨htwo, htail⟩ := hchar heq
      refine ⟨?_, htail⟩
      rw [← UInt32.toNat_inj, ← hi, htwo]
      rfl

/-- The code of a primitive type ends where it ends. Kind: L -/
theorem primitiveCode_split {id id' : UInt32} {s s' : List Char} {u v : List UInt8}
    (hs : primitiveCode id = some s) (hs' : primitiveCode id' = some s')
    (heq : bytes s ++ u = bytes s' ++ v) : id = id' ∧ u = v := by
  obtain ⟨i, hi, rfl⟩ := primitiveCode_eq_some hs
  obtain ⟨j, hj, rfl⟩ := primitiveCode_eq_some hs'
  have hij : i = j := by
    have hpre : bytes primitiveNames[i] <+: bytes primitiveNames[j] ++ v := ⟨u, heq⟩
    rcases List.prefix_or_prefix_of_prefix hpre (List.prefix_append _ v) with hpre | hpre
    · exact primitiveNames_spec.1 i j hpre
    · exact (primitiveNames_spec.1 j i hpre).symm
  subst hij
  refine ⟨?_, List.append_cancel_left heq⟩
  rw [← UInt32.toNat_inj, ← hi, hj]

/-- **The first letter says what kind of code it is**, and `c` is the whole code of a `char`.
Kind: P -/
theorem Coded.head {c : List UInt8} (hc : Coded h rec t c) :
    ∃ b l, c = b :: l ∧ shapeOfLetter b = some (shape t.body) ∧
      (b = byte 'c' → t.body = .primitive 2 ∧ l = []) := by
  have hletter : ∀ {b : UInt8} {s : Shape} (l : List UInt8), shape t.body = s →
      shapeOfLetter b = some s → b ≠ byte 'c' →
      ∃ b' l', b :: l = b' :: l' ∧ shapeOfLetter b' = some (shape t.body) ∧
        (b' = byte 'c' → t.body = .primitive 2 ∧ l' = []) := by
    intro b s l hbody hs hb
    exact ⟨b, l, rfl, by rw [hbody, hs], fun heq => absurd heq hb⟩
  cases hc with
  | primitive hbody hs =>
      obtain ⟨b, l, heq, hshape, hchar⟩ := primitiveCode_head hs
      rw [hbody]
      refine ⟨b, l, heq, hshape, fun hb => ?_⟩
      obtain ⟨rfl, hl⟩ := hchar hb
      exact ⟨rfl, hl⟩
  | literal hbody hc =>
      obtain ⟨c', rfl⟩ := mangleAstNode_head hc
      exact hletter _ (by rw [hbody]; rfl) rfl (by decide)
  | named hbody => exact hletter _ hbody rfl (by decide)
  | string hbody => exact hletter _ (by rw [hbody]; rfl) rfl (by decide)
  | array hbody => exact hletter _ (by rw [hbody]; rfl) rfl (by decide)
  | tuple hbody => exact hletter _ (by rw [hbody]; rfl) rfl (by decide)
  | bigUnion hbody => exact hletter _ (by rw [hbody]; rfl) rfl (by decide)
  | union hbody => exact hletter _ (by rw [hbody]; rfl) rfl (by decide)
  | func hbody => exact hletter _ (by rw [hbody]; rfl) rfl (by decide)
  | pointer hbody => exact hletter _ (by rw [hbody]; rfl) rfl (by decide)
  | reference hbody => exact hletter _ (by rw [hbody]; rfl) rfl (by decide)

end

/-! ## Types whose codes say all of them -/

/-- A text at the end of a list of codes. -/
def Stop (u : List UInt8) : Prop := ∀ b ∈ u.head?, b = byte '_' ∨ b = byte 'E'

/-- The code of the type ends with that of a `char`. -/
def bodyEnds (ends : Addr → Bool) : Body → Bool
  | .primitive id => id == 2
  | .array _ elementType => ends elementType
  | .pointer pointed _ => ends pointed
  | .reference referred => ends referred
  | _ => false

def endsInChar (h : Heap) : ℕ → Addr → Bool
  | 0, _ => false
  | n + 1, a =>
      match unwrapType h (n + 1) a with
      | none => false
      | some (x, _) => bodyEnds (endsInChar h n) (h.types x).body

/-- The flags of a type apart from `const`; only those of a named type count. -/
def baseFlags (t : Ty) : Flags :=
  if shape t.body = .named then (t.flags &&& flgTypeApplicable) &&& ~~~flgConst else 0

/-- The types that are written by their index or by their name can be told apart: the indices differ
modulo `2 ^ 32`, and no name with its closing underscore begins another. -/
structure Apart (h : Heap) (live : Set Addr) : Prop where
  index : ∀ x ∈ live, ∀ y ∈ live, (h.types x).index % 2 ^ 32 = (h.types y).index % 2 ^ 32 → x = y
  name : ∀ x ∈ live, ∀ y ∈ live, shape (h.types x).body = .named → shape (h.types y).body = .named →
    qualified h (h.types x) ++ [byte '_'] <+: qualified h (h.types y) ++ [byte '_'] → x = y

/-- The members of a list, and no code that ends with a `char` before another. -/
def GoodList (good : Addr → Prop) (ends : Addr → Bool) (as : List Addr) : Prop :=
  (∀ a ∈ as, good a) ∧ ∀ a ∈ as.dropLast, ends a = false

/-- The parts of a type are good, and it has no part that is not written: no allocated pointers, no
named functions, no NUL character. -/
def GoodBody (h : Heap) (live : Set Addr) (good : Addr → Prop) (ends : Addr → Bool)
    (x : Addr) : Prop :=
  match (h.types x).body with
  | .primitive _ | .string => True
  | .array _ elementType => good elementType
  | .pointer pointed isAllocated => isAllocated = false ∧ good pointed
  | .reference referred => good referred
  | .tuple members => GoodList good ends members
  | .union members => if 3 < members.length then x ∈ live else GoodList good ends members
  | .func params retType _ => (h.types x).name = none ∧ GoodList good ends (params ++ [retType])
  | .literal (.float _) | .literal (.string _) => x ∈ live
  | .literal value => value ≠ .char 0
  | _ => x ∈ live

/-- **A type whose code says all of it**: it is no alias, and it carries no flags but `const`. -/
def Good (h : Heap) (live : Set Addr) : ℕ → Addr → Prop
  | 0, _ => False
  | n + 1, a => ∃ x f, unwrapType h (n + 1) a = some (x, f) ∧
      resolveType h (n + 1) (some x) = some (some x) ∧
      (f = baseFlags (h.types x) ∨ f = baseFlags (h.types x) ||| flgConst) ∧
      GoodBody h live (Good h live n) (endsInChar h n) x

section

variable {h : Heap} {live : Set Addr} {n : ℕ}

/-- Two codes, each followed by something, are the codes of one type. -/
def Splits (h : Heap) (live : Set Addr) (n : ℕ) : Prop :=
  ∀ ⦃a b : Addr⦄ ⦃ca cb u v : List UInt8⦄, Good h live n a → Good h live n b →
    mangleType h n a = some ca → mangleType h n b = some cb → (endsInChar h n a = true → Stop u) →
    (endsInChar h n b = true → Stop v) → NoDigit u → NoDigit v → ca ++ u = cb ++ v →
    compareTypes h n a b = some true ∧ u = v

/-- A code is that of the type behind the wrappers, with its flags. Kind: L -/
theorem mangleType_eq_some {a : Addr} {c : List UInt8} (hc : mangleType h (n + 1) a = some c)
    {x : Addr} {f : Flags} (hx : unwrapType h (n + 1) a = some (x, f))
    (hres : resolveType h (n + 1) (some x) = some (some x)) :
    ∃ c', Coded h (mangleType h n) (h.types x) c' ∧
      c = if f &&& flgConst = 0 then c' else byte 'c' :: c' := by
  rw [mangleType, hx] at hc
  simp only [Option.bind_eq_bind, Option.bind_some, hres] at hc
  obtain ⟨c', hc', hc⟩ := Option.bind_eq_some_iff.mp hc
  exact ⟨c', coded_of_mangleBody hc', (Option.some.inj hc).symm⟩

/-- A code begins with a letter that tells its kind. Kind: L -/
theorem mangleType_head {a : Addr} {c : List UInt8} (hc : mangleType h n a = some c) :
    ∃ b l, c = b :: l ∧ (shapeOfLetter b).isSome = true := by
  cases n with
  | zero => simp [mangleType] at hc
  | succ n =>
      rw [mangleType] at hc
      obtain ⟨⟨x, f⟩, -, hc⟩ := Option.bind_eq_some_iff.mp hc
      obtain ⟨y', -, hc⟩ := Option.bind_eq_some_iff.mp hc
      obtain ⟨y, -, hc⟩ := Option.bind_eq_some_iff.mp hc
      obtain ⟨c', hc', hc⟩ := Option.bind_eq_some_iff.mp hc
      obtain ⟨b, l, rfl, hshape, -⟩ := (coded_of_mangleBody hc').head
      obtain rfl := Option.some.inj hc
      split_ifs
      · exact ⟨b, l, rfl, by rw [hshape]; rfl⟩
      · exact ⟨_, _, rfl, rfl⟩

theorem mem_letters {b : UInt8} (hb : (shapeOfLetter b).isSome = true) :
    b ∈ bytes ['b', 'w', 'c', 'u', 'i', 'f', 's', 'A', 'T', 'U', 'F', 'P', 'R', 'L', 'Z'] := by
  by_contra hne
  simp only [bytes, List.map_cons, List.map_nil, List.mem_cons, List.not_mem_nil, or_false,
    not_or] at hne
  simp [shapeOfLetter, bytes, hne] at hb

/-- A letter of a code is no digit and closes no list. Kind: L -/
theorem letter_spec {b : UInt8} (hb : (shapeOfLetter b).isSome = true) :
    isDigit b = false ∧ b ≠ byte '_' ∧ b ≠ byte 'E' := by
  have hall : (bytes ['b', 'w', 'c', 'u', 'i', 'f', 's', 'A', 'T', 'U',
    'F', 'P', 'R', 'L', 'Z']).all
      (fun b => decide (isDigit b = false ∧ b ≠ byte '_' ∧ b ≠ byte 'E')) = true := by
    decide
  exact of_decide_eq_true (List.all_eq_true.mp hall b (mem_letters hb))

/-- **Two lists of codes that end with the same closing letter.** Kind: P -/
theorem mangleTypes_split (hs : Splits h live n) {stop : UInt8}
    (hstop : stop = byte '_' ∨ stop = byte 'E')
    {u v : List UInt8} : ∀ {as bs : List Addr} {ca cb : List UInt8},
    GoodList (Good h live n) (endsInChar h n) as → GoodList (Good h live n) (endsInChar h n) bs →
    mangleTypes (mangleType h n) as = some ca → mangleTypes (mangleType h n) bs = some cb →
    ca ++ stop :: u = cb ++ stop :: v →
    List.Forall₂ (fun a b => compareTypes h n a b = some true) as bs ∧ u = v := by
  -- a code is never taken for the closing letter
  have hne : ∀ {a : Addr} {c w w' : List UInt8}, mangleType h n a = some c →
    stop :: w ≠ c ++ w' := by
    intro a c w w' hc heq
    obtain ⟨b, l, rfl, hb⟩ := mangleType_head hc
    obtain ⟨-, hne1, hne2⟩ := letter_spec hb
    rw [List.cons_append, List.cons.injEq] at heq
    rcases hstop with h1 | h1
    · exact hne1 (heq.1.symm.trans h1)
    · exact hne2 (heq.1.symm.trans h1)
  have hfollow : ∀ {as : List Addr} {c w : List UInt8}, mangleTypes (mangleType h n) as = some c →
      NoDigit (c ++ stop :: w) ∧ (as = [] → Stop (c ++ stop :: w)) := by
    intro as c w hc
    cases as with
    | nil =>
        obtain rfl := Option.some.inj hc
        constructor
        · intro b hb
          obtain rfl := Option.some.inj hb
          rcases hstop with rfl | rfl <;> decide
        · intro _ b hb
          obtain rfl := Option.some.inj hb
          exact hstop
    | cons a as =>
        obtain ⟨c1, hc1, hc⟩ := Option.bind_eq_some_iff.mp hc
        obtain ⟨c2, -, hc⟩ := Option.bind_eq_some_iff.mp hc
        obtain rfl := Option.some.inj hc
        obtain ⟨b, l, rfl, hb⟩ := mangleType_head hc1
        refine ⟨fun b' hb' => ?_, fun hnil => absurd hnil (by simp)⟩
        obtain rfl := Option.some.inj hb'
        exact (letter_spec hb).1
  intro as
  induction as with
  | nil =>
      intro bs ca cb _ _ hca hcb heq
      obtain rfl := Option.some.inj hca
      cases bs with
      | nil =>
          obtain rfl := Option.some.inj hcb
          exact ⟨.nil, (List.cons.inj heq).2⟩
      | cons b bs =>
          obtain ⟨c1, hc1, hcb⟩ := Option.bind_eq_some_iff.mp hcb
          obtain ⟨c2, -, hcb⟩ := Option.bind_eq_some_iff.mp hcb
          obtain rfl := Option.some.inj hcb
          rw [List.nil_append, List.append_assoc] at heq
          exact absurd heq (hne hc1)
  | cons a as ih =>
      intro bs ca cb hga hgb hca hcb heq
      obtain ⟨c1, hc1, hca⟩ := Option.bind_eq_some_iff.mp hca
      obtain ⟨c2, hc2, hca⟩ := Option.bind_eq_some_iff.mp hca
      obtain rfl := Option.some.inj hca
      cases bs with
      | nil =>
          obtain rfl := Option.some.inj hcb
          rw [List.nil_append, List.append_assoc] at heq
          exact absurd heq.symm (hne hc1)
      | cons b bs =>
          obtain ⟨d1, hd1, hcb⟩ := Option.bind_eq_some_iff.mp hcb
          obtain ⟨d2, hd2, hcb⟩ := Option.bind_eq_some_iff.mp hcb
          obtain rfl := Option.some.inj hcb
          rw [List.append_assoc, List.append_assoc] at heq
          have hends : ∀ {a : Addr} {as : List Addr} {c w : List UInt8},
              (∀ x ∈ (a :: as).dropLast, endsInChar h n x = false) →
              mangleTypes (mangleType h n) as = some c → endsInChar h n a = true →
              Stop (c ++ stop :: w) := by
            intro a as c w hdrop hc hend
            apply (hfollow hc).2
            by_contra hnil
            obtain ⟨a', as', rfl⟩ := List.exists_cons_of_ne_nil hnil
            rw [hdrop a (by simp)] at hend
            exact absurd hend (by simp)
          have htail : ∀ {a : Addr} {as : List Addr},
              GoodList (Good h live n) (endsInChar h n) (a :: as) →
              GoodList (Good h live n) (endsInChar h n) as := by
            intro a as hg
            refine ⟨fun x hx => hg.1 x (List.mem_cons_of_mem _ hx), fun x hx => hg.2 x ?_⟩
            cases as with
            | nil => simp at hx
            | cons a' as' =>
                rw [List.dropLast_cons_of_ne_nil (by simp)]
                exact List.mem_cons_of_mem _ hx
          obtain ⟨hsame, hrest⟩ :=
            hs (hga.1 a List.mem_cons_self) (hgb.1 b List.mem_cons_self) hc1 hd1
            (hends hga.2 hc2) (hends hgb.2 hd2) (hfollow hc2).1 (hfollow hd2).1 heq
          obtain ⟨hall, huv⟩ := ih (htail hga) (htail hgb) hc2 hd2 hrest
          exact ⟨.cons hsame hall, huv⟩

/-- The letter of a kind of literal. -/
def litLetter : Lit → UInt8
  | .null => byte 'n'
  | .bool _ => byte 'b'
  | .char _ => byte 'c'
  | .integer isNegative _ => if isNegative then byte 'i' else byte 'u'
  | .float _ => byte 'f'
  | .string _ => byte 's'
  | _ => 0

/-- What follows the letter. -/
def litRest (idx : ℕ) : Lit → Option (List UInt8)
  | .null => some []
  | .bool value => some (bytes (if value then ['t', 'r', 'u', 'e'] else ['f', 'a', 'l', 's', 'e']))
  | .char value => Core.printUtf8 value false
  | .integer isNegative uValue => some <|
      if isNegative then signedDecimal uValue.toInt else decimal uValue.toNat
  | .float _ | .string _ => some (decimal (idx % 2 ^ 32))
  | _ => none

/-- The code of a literal: its letter and what follows. Kind: L -/
theorem mangleAstNode_eq {idx : ℕ} {l : Lit} {c : List UInt8} (hc : mangleAstNode idx l = some c) :
    ∃ r, litRest idx l = some r ∧ c = byte 'L' :: litLetter l :: byte '_' :: r := by
  cases l with
  | char value =>
      obtain ⟨s, hs, rfl⟩ := Option.map_eq_some_iff.mp hc
      exact ⟨_, by rw [litRest, hs]; rfl, rfl⟩
  | integer isNegative uValue =>
      obtain rfl := Option.some.inj hc
      cases isNegative <;> exact ⟨_, rfl, rfl⟩
  | null | bool _ | float _ | string _ =>
      obtain rfl := Option.some.inj hc
      exact ⟨_, rfl, rfl⟩
  | _ => simp [mangleAstNode] at hc

def Lit.isIndexed : Lit → Bool
  | .float _ | .string _ => true
  | _ => false

/-- **The literal, or the index of its type, is read back.** Kind: P -/
theorem mangleAstNode_split {idx idx' : ℕ} {l l' : Lit} {c c' u v : List UInt8}
    (hc : mangleAstNode idx l = some c) (hc' : mangleAstNode idx' l' = some c') (hu : NoDigit u)
    (hv : NoDigit v) (heq : c ++ u = c' ++ v) :
    (compareAstNodes l l' = some true ∨ Lit.isIndexed l = true ∧ Lit.isIndexed l' = true ∧
      idx % 2 ^ 32 = idx' % 2 ^ 32) ∧ u = v := by
  obtain ⟨r, hr, rfl⟩ := mangleAstNode_eq hc
  obtain ⟨r', hr', rfl⟩ := mangleAstNode_eq hc'
  have hletter : litLetter l = litLetter l' := (List.cons.inj (List.cons.inj heq).2).1
  have hrest : r ++ u = r' ++ v := (List.cons.inj (List.cons.inj (List.cons.inj heq).2).2).2
  have hint : ∀ (neg : Bool) (w : BitVec 128) (k : Lit), (∀ neg' w', k ≠ .integer neg' w') →
      litLetter (.integer neg w) ≠ litLetter k := by
    intro neg w k hk
    cases k with
    | integer neg' w' => exact absurd rfl (hk neg' w')
    | _ => cases neg <;> simp only [litLetter] <;> decide
  cases l with
  | null =>
      cases l' with
      | null =>
          obtain rfl := Option.some.inj hr
          obtain rfl := Option.some.inj hr'
          exact ⟨.inl rfl, hrest⟩
      | integer neg w => exact absurd hletter.symm (hint neg w _ (by simp))
      | _ => exact absurd hletter (by simp only [litLetter]; decide)
  | bool b =>
      cases l' with
      | bool b' =>
          obtain rfl := Option.some.inj hr
          obtain rfl := Option.some.inj hr'
          cases b <;> cases b'
          · exact ⟨.inl rfl, List.append_cancel_left hrest⟩
          · exact absurd (List.cons.inj hrest).1 (by decide)
          · exact absurd (List.cons.inj hrest).1 (by decide)
          · exact ⟨.inl rfl, List.append_cancel_left hrest⟩
      | integer neg w => exact absurd hletter.symm (hint neg w _ (by simp))
      | _ => exact absurd hletter (by simp only [litLetter]; decide)
  | char chr =>
      cases l' with
      | char chr' =>
          obtain ⟨rfl, huv⟩ := printUtf8_split hr hr' hrest
          exact ⟨.inl (by simp [compareAstNodes]), huv⟩
      | integer neg w => exact absurd hletter.symm (hint neg w _ (by simp))
      | _ => exact absurd hletter (by simp only [litLetter]; decide)
  | integer neg w =>
      cases l' with
      | integer neg' w' =>
          obtain rfl := Option.some.inj hr
          obtain rfl := Option.some.inj hr'
          cases neg <;> cases neg'
          · obtain ⟨hw, huv⟩ := decimal_split hu hv hrest
            obtain rfl := BitVec.eq_of_toNat_eq hw
            exact ⟨.inl (by simp [compareAstNodes]), huv⟩
          · exact absurd hletter (by simp only [litLetter]; decide)
          · exact absurd hletter (by simp only [litLetter]; decide)
          · obtain ⟨hw, huv⟩ := signedDecimal_split hu hv hrest
            obtain rfl := BitVec.eq_of_toInt_eq hw
            exact ⟨.inl (by simp [compareAstNodes]), huv⟩
      | _ => exact absurd hletter (hint neg w _ (by simp))
  | float bits =>
      cases l' with
      | float bits' =>
          obtain rfl := Option.some.inj hr
          obtain rfl := Option.some.inj hr'
          obtain ⟨hidx, huv⟩ := decimal_split hu hv hrest
          exact ⟨.inr ⟨rfl, rfl, hidx⟩, huv⟩
      | integer neg w => exact absurd hletter.symm (hint neg w _ (by simp))
      | _ => exact absurd hletter (by simp only [litLetter]; decide)
  | string ptr =>
      cases l' with
      | string ptr' =>
          obtain rfl := Option.some.inj hr
          obtain rfl := Option.some.inj hr'
          obtain ⟨hidx, huv⟩ := decimal_split hu hv hrest
          exact ⟨.inr ⟨rfl, rfl, hidx⟩, huv⟩
      | integer neg w => exact absurd hletter.symm (hint neg w _ (by simp))
      | _ => exact absurd hletter (by simp only [litLetter]; decide)
  | _ => simp [litRest] at hr

/-! The form of a code by its kind. -/

section

variable {rec : Addr → Option (List UInt8)} {t : Ty} {c : List UInt8}

theorem shape_absurd {p : Prop} {b : Body} {k : Shape} (hs : shape t.body = k) (hb : t.body = b)
    (hne : shape b ≠ k) : p :=
  absurd (hb ▸ hs) hne

theorem Coded.of_primitive (hc : Coded h rec t c) (hs : shape t.body = .primitive) :
    ∃ id s, t.body = .primitive id ∧ primitiveCode id = some s ∧ c = bytes s := by
  cases hc <;> first
    | exact ⟨_, _, ‹_›, ‹_›, rfl⟩
    | (refine shape_absurd hs ‹_› ?_; exact nofun)
    | exact nomatch hs.symm.trans ‹shape t.body = .named›

theorem Coded.of_string (hc : Coded h rec t c) (hs : shape t.body = .string) :
    t.body = .string ∧ c = [byte 's'] := by
  cases hc <;> first
    | exact ⟨‹_›, rfl⟩
    | (refine shape_absurd hs ‹_› ?_; exact nofun)
    | exact nomatch hs.symm.trans ‹shape t.body = .named›

/-- The code of an array. Kind: L -/
theorem Coded.of_array (hc : Coded h rec t c) (hs : shape t.body = .array) :
    ∃ len a c', t.body = .array len a ∧ rec a = some c' ∧
      c = byte 'A' :: (decimal len.toNat ++ c') := by
  cases hc <;> first
    | exact ⟨_, _, _, ‹_›, ‹_›, rfl⟩
    | (refine shape_absurd hs ‹_› ?_; exact nofun)
    | exact nomatch hs.symm.trans ‹shape t.body = .named›

/-- The code of a tuple. Kind: L -/
theorem Coded.of_tuple (hc : Coded h rec t c) (hs : shape t.body = .tuple) :
    ∃ as c', t.body = .tuple as ∧ mangleTypes rec as = some c' ∧
      c = byte 'T' :: (c' ++ [byte '_']) := by
  cases hc <;> first
    | exact ⟨_, _, ‹_›, ‹_›, rfl⟩
    | (refine shape_absurd hs ‹_› ?_; exact nofun)
    | exact nomatch hs.symm.trans ‹shape t.body = .named›

/-- The code of a union: its index, or its members. Kind: L -/
theorem Coded.of_union (hc : Coded h rec t c) (hs : shape t.body = .union) :
    ∃ as, t.body = .union as ∧
      (3 < as.length ∧ c = byte 'U' :: (decimal t.index ++ [byte '_']) ∨
        ¬ 3 < as.length ∧ ∃ c', mangleTypes rec as = some c' ∧
          c = byte 'U' :: byte '_' :: (c' ++ [byte '_'])) := by
  cases hc <;> first
    | exact ⟨_, ‹_›, .inl ⟨‹_›, rfl⟩⟩
    | exact ⟨_, ‹_›, .inr ⟨‹_›, _, ‹_›, rfl⟩⟩
    | (refine shape_absurd hs ‹_› ?_; exact nofun)
    | exact nomatch hs.symm.trans ‹shape t.body = .named›

/-- The code of a function type. Kind: L -/
theorem Coded.of_func (hc : Coded h rec t c) (hs : shape t.body = .func) :
    ∃ as a d c', t.body = .func as a d ∧ mangleTypes rec (as ++ [a]) = some c' ∧
      c = byte 'F' :: (c' ++ [byte '_']) := by
  cases hc <;> first
    | exact ⟨_, _, _, _, ‹_›, ‹_›, rfl⟩
    | (refine shape_absurd hs ‹_› ?_; exact nofun)
    | exact nomatch hs.symm.trans ‹shape t.body = .named›

theorem Coded.of_pointer (hc : Coded h rec t c) (hs : shape t.body = .pointer) :
    ∃ a isAllocated c', t.body = .pointer a isAllocated ∧ rec a = some c' ∧ c = byte 'P' :: c' := by
  cases hc <;> first
    | exact ⟨_, _, _, ‹_›, ‹_›, rfl⟩
    | (refine shape_absurd hs ‹_› ?_; exact nofun)
    | exact nomatch hs.symm.trans ‹shape t.body = .named›

theorem Coded.of_reference (hc : Coded h rec t c) (hs : shape t.body = .reference) :
    ∃ a c', t.body = .reference a ∧ rec a = some c' ∧ c = byte 'R' :: c' := by
  cases hc <;> first
    | exact ⟨_, _, ‹_›, ‹_›, rfl⟩
    | (refine shape_absurd hs ‹_› ?_; exact nofun)
    | exact nomatch hs.symm.trans ‹shape t.body = .named›

/-- The code of a literal type. Kind: L -/
theorem Coded.of_literal (hc : Coded h rec t c) (hs : shape t.body = .literal) :
    ∃ l, t.body = .literal l ∧ mangleAstNode t.index l = some c := by
  cases hc <;> first
    | exact ⟨_, ‹_›, ‹_›⟩
    | (refine shape_absurd hs ‹_› ?_; exact nofun)
    | exact nomatch hs.symm.trans ‹shape t.body = .named›

/-- The code of a type with a name. Kind: L -/
theorem Coded.of_named (hc : Coded h rec t c) (hs : shape t.body = .named) :
    c = byte 'Z' :: (qualified h t ++ [byte '_']) := by
  cases hc <;> first
    | rfl
    | (refine shape_absurd hs ‹_› ?_; exact nofun)

end

/-- The contents of two types are the same: they are one type, or their parts compare equal. -/
def SameBody (h : Heap) (n : ℕ) (x y : Addr) : Prop :=
  x = y ∨ shape (h.types x).body ≠ .named ∧ shape (h.types y).body ≠ .named ∧
    BodyEq (compareTypes h n) (h.types x) (h.types y) (h.types x).body (h.types y).body

/-- A named type, or a type that is written by its index, is one of those that are told apart.
Kind: L -/
theorem GoodBody.mem_live {good : Addr → Prop} {ends : Addr → Bool} {x : Addr}
    (hx : GoodBody h live good ends x) (hs : shape (h.types x).body = .named) : x ∈ live := by
  unfold GoodBody at hx
  cases hbody : (h.types x).body <;> rw [hbody] at hx hs <;>
    first
    | exact hx
    | exact nomatch hs

/-- The parts of two types that are not written by name. Kind: L -/
theorem SameBody.of_eq {x y : Addr} {b b' : Body} (hx : (h.types x).body = b)
    (hy : (h.types y).body = b') (hnx : shape b ≠ .named) (hny : shape b' ≠ .named)
    (heq : BodyEq (compareTypes h n) (h.types x) (h.types y) b b') : SameBody h n x y := by
  subst hx hy
  exact .inr ⟨hnx, hny, heq⟩

/-- Two unions with one code are one type. Kind: L -/
theorem union_split (happart : Apart h live) (hs : Splits h live n) {x y : Addr}
    {c c' u v : List UInt8} (hx : Coded h (mangleType h n) (h.types x) c)
    (hy : Coded h (mangleType h n) (h.types y) c')
    (gx : GoodBody h live (Good h live n) (endsInChar h n) x)
    (gy : GoodBody h live (Good h live n) (endsInChar h n) y)
    (hsx : shape (h.types x).body = .union) (hsy : shape (h.types y).body = .union)
    (heq : c ++ u = c' ++ v) : SameBody h n x y ∧ u = v := by
  have hclose : ∀ w : List UInt8, NoDigit (byte '_' :: w) := by
    intro w b hb
    obtain rfl := Option.some.inj hb
    decide
  have hdigit : ∀ (k : ℕ) (w w' : List UInt8), decimal k ++ w ≠ byte '_' :: w' := by
    intro k w w' hk
    obtain ⟨b, l, hb, hbd⟩ := decimal_head k
    rw [hb, List.cons_append, List.cons.injEq] at hk
    rw [hk.1] at hbd
    exact absurd hbd (by decide)
  obtain ⟨as, hbx, hcx⟩ := hx.of_union hsx
  obtain ⟨bs, hby, hcy⟩ := hy.of_union hsy
  unfold GoodBody at gx gy
  rw [hbx] at gx
  rw [hby] at gy
  dsimp only at gx gy
  rcases hcx with ⟨hlen, rfl⟩ | ⟨hlen, d, hd, rfl⟩
  · rcases hcy with ⟨hlen', rfl⟩ | ⟨hlen', d', hd', rfl⟩
    · rw [if_pos hlen] at gx
      rw [if_pos hlen'] at gy
      simp only [List.cons_append, List.append_assoc, List.cons.injEq, true_and,
        List.nil_append] at heq
      obtain ⟨hidx, huv⟩ := decimal_split (hclose u) (hclose v) heq
      exact ⟨.inl (happart.index x gx y gy (by rw [hidx])), (List.cons.inj huv).2⟩
    · simp only [List.cons_append, List.append_assoc, List.cons.injEq, true_and] at heq
      exact absurd heq (hdigit _ _ _)
  · rcases hcy with ⟨hlen', rfl⟩ | ⟨hlen', d', hd', rfl⟩
    · simp only [List.cons_append, List.append_assoc, List.cons.injEq, true_and] at heq
      exact absurd heq.symm (hdigit _ _ _)
    · rw [if_neg hlen] at gx
      rw [if_neg hlen'] at gy
      simp only [List.cons_append, List.append_assoc, List.cons.injEq, true_and,
        List.nil_append] at heq
      obtain ⟨hall, huv⟩ := mangleTypes_split hs (.inl rfl) gx gy hd hd' heq
      exact ⟨.of_eq hbx hby nofun nofun (.union hall), huv⟩

/-- Two literals with one code are one type. Kind: L -/
theorem literal_split (happart : Apart h live) {x y : Addr} {c c' u v : List UInt8}
    (hx : Coded h (mangleType h n) (h.types x) c) (hy : Coded h (mangleType h n) (h.types y) c')
    (gx : GoodBody h live (Good h live n) (endsInChar h n) x)
    (gy : GoodBody h live (Good h live n) (endsInChar h n) y)
    (hsx : shape (h.types x).body = .literal) (hsy : shape (h.types y).body = .literal)
    (hu : NoDigit u) (hv : NoDigit v) (heq : c ++ u = c' ++ v) : SameBody h n x y ∧ u = v := by
  have hlive : ∀ {x : Addr} {l : Lit}, GoodBody h live (Good h live n) (endsInChar h n) x →
      (h.types x).body = .literal l → Lit.isIndexed l = true → x ∈ live := by
    intro x l gx hbody hl
    unfold GoodBody at gx
    rw [hbody] at gx
    cases l <;> first | exact gx | simp [Lit.isIndexed] at hl
  obtain ⟨l, hbx, hcx⟩ := hx.of_literal hsx
  obtain ⟨l', hby, hcy⟩ := hy.of_literal hsy
  obtain ⟨hcomp | ⟨hl, hl', hidx⟩, huv⟩ := mangleAstNode_split hcx hcy hu hv heq
  · exact ⟨.of_eq hbx hby nofun nofun (.literal hcomp), huv⟩
  · exact ⟨.inl (happart.index x (hlive gx hbx hl) y (hlive gy hby hl') hidx), huv⟩

/-- **Two codes without `const`, each followed by something.** Kind: P -/
theorem coded_split (happart : Apart h live) (hs : Splits h live n) {x y : Addr}
    {c c' u v : List UInt8} (hx : Coded h (mangleType h n) (h.types x) c)
    (hy : Coded h (mangleType h n) (h.types y) c')
    (gx : GoodBody h live (Good h live n) (endsInChar h n) x)
    (gy : GoodBody h live (Good h live n) (endsInChar h n) y)
    (ex : bodyEnds (endsInChar h n) (h.types x).body = true → Stop u)
    (ey : bodyEnds (endsInChar h n) (h.types y).body = true → Stop v) (hu : NoDigit u)
      (hv : NoDigit v)
    (heq : c ++ u = c' ++ v) : SameBody h n x y ∧ u = v := by
  have hshape : shape (h.types x).body = shape (h.types y).body := by
    obtain ⟨b, l, rfl, hb, -⟩ := hx.head
    obtain ⟨b', l', rfl, hb', -⟩ := hy.head
    obtain rfl : b = b' := (List.cons.inj heq).1
    exact Option.some.inj (hb.symm.trans hb')
  have hcode : ∀ {a : Addr} {d w : List UInt8}, mangleType h n a = some d → NoDigit (d ++ w) := by
    intro a d w hd
    obtain ⟨b, l, rfl, hb⟩ := mangleType_head hd
    intro b' hb'
    obtain rfl := Option.some.inj hb'
    exact (letter_spec hb).1
  cases hsx : shape (h.types x).body with
  | primitive =>
      obtain ⟨id, s, hbx, hcx, rfl⟩ := hx.of_primitive hsx
      obtain ⟨id', s', hby, hcy, rfl⟩ := hy.of_primitive (hshape.symm.trans hsx)
      obtain ⟨rfl, huv⟩ := primitiveCode_split hcx hcy heq
      exact ⟨.of_eq hbx hby nofun nofun .primitive, huv⟩
  | string =>
      obtain ⟨hbx, rfl⟩ := hx.of_string hsx
      obtain ⟨hby, rfl⟩ := hy.of_string (hshape.symm.trans hsx)
      exact ⟨.of_eq hbx hby nofun nofun .string, (List.cons.inj heq).2⟩
  | array =>
      obtain ⟨len, a, d, hbx, hd, rfl⟩ := hx.of_array hsx
      obtain ⟨len', a', d', hby, hd', rfl⟩ := hy.of_array (hshape.symm.trans hsx)
      unfold GoodBody at gx gy
      rw [hbx] at gx ex
      rw [hby] at gy ey
      simp only [List.cons_append, List.append_assoc, List.cons.injEq, true_and] at heq
      obtain ⟨hlen, hrest⟩ := decimal_split (hcode hd) (hcode hd') heq
      obtain rfl := UInt64.toNat_inj.mp hlen
      obtain ⟨hsame, huv⟩ := hs gx gy hd hd' ex ey hu hv hrest
      exact ⟨.of_eq hbx hby nofun nofun (.array hsame), huv⟩
  | tuple =>
      obtain ⟨as, d, hbx, hd, rfl⟩ := hx.of_tuple hsx
      obtain ⟨bs, d', hby, hd', rfl⟩ := hy.of_tuple (hshape.symm.trans hsx)
      unfold GoodBody at gx gy
      rw [hbx] at gx
      rw [hby] at gy
      simp only [List.cons_append, List.append_assoc, List.cons.injEq, true_and,
        List.nil_append] at heq
      obtain ⟨hall, huv⟩ := mangleTypes_split hs (.inl rfl) gx gy hd hd' heq
      exact ⟨.of_eq hbx hby nofun nofun (.tuple hall), huv⟩
  | union => exact union_split happart hs hx hy gx gy hsx (hshape.symm.trans hsx) heq
  | func =>
      obtain ⟨as, a, k, d, hbx, hd, rfl⟩ := hx.of_func hsx
      obtain ⟨bs, b, k', d', hby, hd', rfl⟩ := hy.of_func (hshape.symm.trans hsx)
      unfold GoodBody at gx gy
      rw [hbx] at gx
      rw [hby] at gy
      simp only [List.cons_append, List.append_assoc, List.cons.injEq, true_and,
        List.nil_append] at heq
      obtain ⟨hall, huv⟩ := mangleTypes_split hs (.inl rfl) gx.2 gy.2 hd hd' heq
      have hlen : as.length = bs.length := by
        have := hall.length_eq
        simp only [List.length_append, List.length_singleton] at this
        omega
      have hparams := List.forall₂_take_append _ _ _ hall
      have hret := List.forall₂_drop_append _ _ _ hall
      rw [← hlen, List.take_left' rfl] at hparams
      rw [← hlen, List.drop_left' rfl] at hret
      refine ⟨.of_eq hbx hby nofun nofun (.func ?_ ?_ ?_ hparams), huv⟩
      · rw [gx.1, gy.1]
      · rw [gx.1]
        exact fun hsome => absurd hsome (by simp)
      · exact (List.forall₂_cons.mp hret).1
  | pointer =>
      obtain ⟨a, alloc, d, hbx, hd, rfl⟩ := hx.of_pointer hsx
      obtain ⟨a', alloc', d', hby, hd', rfl⟩ := hy.of_pointer (hshape.symm.trans hsx)
      unfold GoodBody at gx gy
      rw [hbx] at gx ex
      rw [hby] at gy ey
      obtain ⟨rfl, gx⟩ := gx
      obtain ⟨rfl, gy⟩ := gy
      obtain ⟨hsame, huv⟩ := hs gx gy hd hd' ex ey hu hv (List.cons.inj heq).2
      exact ⟨.of_eq hbx hby nofun nofun (.pointer hsame), huv⟩
  | reference =>
      obtain ⟨a, d, hbx, hd, rfl⟩ := hx.of_reference hsx
      obtain ⟨a', d', hby, hd', rfl⟩ := hy.of_reference (hshape.symm.trans hsx)
      unfold GoodBody at gx gy
      rw [hbx] at gx ex
      rw [hby] at gy ey
      obtain ⟨hsame, huv⟩ := hs gx gy hd hd' ex ey hu hv (List.cons.inj heq).2
      exact ⟨.of_eq hbx hby nofun nofun (.reference hsame), huv⟩
  | literal => exact literal_split happart hx hy gx gy hsx (hshape.symm.trans hsx) hu hv heq
  | named =>
      have hsy := hshape.symm.trans hsx
      obtain rfl := hx.of_named hsx
      obtain rfl := hy.of_named hsy
      have hxy : x = y := by
        have hmem := gx.mem_live hsx
        have hmem' := gy.mem_live hsy
        have hpre : qualified h (h.types x) ++ [byte '_'] <+:
            (qualified h (h.types y) ++ [byte '_']) ++ v := ⟨u, (List.cons.inj heq).2⟩
        rcases List.prefix_or_prefix_of_prefix hpre (List.prefix_append _ v) with hpre | hpre
        · exact happart.name x hmem y hmem' hsx hsy hpre
        · exact (happart.name y hmem' x hmem hsy hsx hpre).symm
      subst hxy
      exact ⟨.inl rfl, List.append_cancel_left heq⟩

/-- The two forms of the flags of a type. Kind: L -/
theorem baseFlags_const (t : Ty) : baseFlags t &&& flgConst = 0 ∧
    (baseFlags t ||| flgConst) &&& flgConst ≠ 0 := by
  have hbase : baseFlags t &&& flgConst = 0 := by
    unfold baseFlags
    split_ifs
    · rw [UInt64.and_assoc, show ~~~flgConst &&& flgConst = 0 from by decide, UInt64.and_zero]
    · exact UInt64.zero_and
  refine ⟨hbase, ?_⟩
  rw [UInt64.or_and_right, hbase, UInt64.zero_or]
  decide

/-- **Two codes, each followed by something, are the codes of one type**, at every depth. Kind: P -/
theorem mangleType_split (happart : Apart h live) (n : ℕ) : Splits h live n := by
  induction n with
  | zero => exact fun a b ca cb u v ga => absurd ga id
  | succ n ih =>
      rintro a b ca cb u v ⟨x, f, hx, hresx, hfx, gx⟩
        ⟨y, g, hy, hresy, hgy, gy⟩ hca hcb ea eb hu hv heq
      obtain ⟨c, hc, rfl⟩ := mangleType_eq_some hca hx hresx
      obtain ⟨d, hd, rfl⟩ := mangleType_eq_some hcb hy hresy
      simp only [endsInChar, hx] at ea
      simp only [endsInChar, hy] at eb
      -- the letter of a `const` is taken for that of a `char` only before a list ends
      have hconst : ∀ {x : Addr} {c d u v : List UInt8},
          Coded h (mangleType h n) (h.types x) c → (∃ t, Coded h (mangleType h n) t d) →
          (bodyEnds (endsInChar h n) (h.types x).body = true → Stop u) →
          c ++ u ≠ byte 'c' :: d ++ v := by
        rintro x c d u v hc ⟨t, hd⟩ hstop heq
        obtain ⟨b, l, rfl, -, hchar⟩ := hc.head
        obtain ⟨b', l', rfl, hb', -⟩ := hd.head
        obtain ⟨hbody, rfl⟩ := hchar (List.cons.inj heq).1
        have hu : u = b' :: l' ++ v := (List.cons.inj heq).2
        rw [hbody] at hstop
        obtain ⟨-, hne, hne'⟩ := letter_spec (b := b') (by rw [hb']; rfl)
        rcases hstop rfl b' (by rw [hu]; rfl) with heq | heq
        · exact hne heq
        · exact hne' heq
      have hflags : (f &&& flgConst = 0 ↔ g &&& flgConst = 0) ∧ SameBody h n x y ∧ u = v := by
        split_ifs at heq with hf hg hg
        · exact ⟨iff_of_true hf hg, coded_split happart ih hc hd gx gy ea eb hu hv heq⟩
        · exact absurd heq (hconst hc ⟨_, hd⟩ ea)
        · exact absurd heq.symm (hconst hd ⟨_, hc⟩ eb)
        · exact ⟨iff_of_false hf hg,
            coded_split happart ih hc hd gx gy ea eb hu hv (List.cons.inj heq).2⟩
      obtain ⟨hiff, hsame, huv⟩ := hflags
      have hbase : baseFlags (h.types x) = baseFlags (h.types y) := by
        rcases hsame with rfl | ⟨hnx, hny, -⟩
        · rfl
        · rw [baseFlags, baseFlags, if_neg hnx, if_neg hny]
      have hfg : f = g := by
        obtain ⟨hx0, hx1⟩ := baseFlags_const (h.types x)
        rw [hbase] at hfx hx0 hx1
        rcases hfx with rfl | rfl <;> rcases hgy with rfl | rfl
        · rfl
        · exact absurd (hiff.mp hx0) hx1
        · exact absurd (hiff.mpr hx0) hx1
        · rfl
      subst hfg
      refine ⟨Iff.mpr compareTypes_true_iff ⟨x, y, f, hx, hy, ?_⟩, huv⟩
      rcases hsame with hxy | ⟨-, -, hbody⟩
      · exact .inl hxy
      · by_cases hxy : x = y
        · exact .inl hxy
        · refine .inr ⟨hxy, ?_, Iff.mpr compareBody_eq_true hbody⟩
          unfold Ty.tag
          revert hbody
          generalize (h.types x).body = b1
          generalize (h.types y).body = b2
          rintro hbody
          cases hbody <;> rfl

/-! ## Mangled names -/

def NoNul (c : List UInt8) : Prop := (0 : UInt8) ∉ c

theorem NoNul.append {c d : List UInt8} (hc : NoNul c) (hd : NoNul d) : NoNul (c ++ d) := by
  intro hmem
  rcases List.mem_append.mp hmem with hmem | hmem
  · exact hc hmem
  · exact hd hmem

theorem noNul_decimal (n : ℕ) : NoNul (decimal n) := by
  intro hmem
  exact absurd (isDigit_decimal 0 hmem) (by decide)

theorem noNul_signedDecimal (z : ℤ) : NoNul (signedDecimal z) := by
  unfold signedDecimal
  split_ifs
  · exact NoNul.append (c := [byte '-']) (by unfold NoNul; decide) (noNul_decimal _)
  · exact noNul_decimal _

theorem noNul_cstr (s : List UInt8) : NoNul (cstr s) := by
  intro hmem
  have hall : (s.takeWhile (· != 0)).all (· != 0) = true := List.all_takeWhile
  have hzero := List.all_eq_true.mp hall 0 hmem
  exact absurd hzero (by decide)

theorem cstr_eq {s : List UInt8} (hs : NoNul s) : cstr s = s := by
  have hall : ∀ b ∈ s, (b != 0) = true := by
    intro b hb
    rw [bne_iff_ne]
    rintro rfl
    exact hs hb
  have happend : (s ++ []).takeWhile (· != 0) = s ++ [].takeWhile (· != 0) :=
    List.takeWhile_append_of_pos hall
  rw [List.append_nil, List.takeWhile_nil, List.append_nil] at happend
  exact happend

theorem noNul_qualified (t : Ty) : NoNul (qualified h t) := by
  apply NoNul.append
  · cases t.ns with
    | none => simp [NoNul]
    | some s => exact noNul_cstr _
  · cases t.name with
    | none => simp [NoNul]
    | some s => exact noNul_cstr _

/-- A character but NUL is printed without NUL. Kind: L -/
theorem noNul_printUtf8 {c : UInt32} (hc : c ≠ 0) {s : List UInt8}
    (hs : Core.printUtf8 c false = some s) : NoNul s := by
  have hpos : c.toNat ≠ 0 := fun h => hc (UInt32.toNat_inj.mp h)
  have hbyte : ∀ k : ℕ, 0 < k → k < 256 → 0 ≠ Lib.Utf8.octet k := by
    intro k hk hlt heq
    have hnat := congrArg UInt8.toNat heq
    rw [Lib.Utf8.toNat_octet hlt, UInt8.toNat_zero] at hnat
    omega
  have henc : Core.encodeUtf8 c = some s := hs
  intro hmem
  rcases Core.encodeUtf8_cases c with ⟨h1, h⟩ | ⟨h1, h2, h⟩ | ⟨h1, h2, h⟩ | ⟨h1, h2, h⟩ | ⟨-, h⟩ <;>
    rw [h] at henc <;> cases henc <;>
    simp only [List.mem_cons, List.not_mem_nil, or_false] at hmem
  · exact hbyte _ (by omega) (by omega) hmem
  · rcases hmem with hmem | hmem <;> exact hbyte _ (by omega) (by omega) hmem
  · rcases hmem with hmem | hmem | hmem <;> exact hbyte _ (by omega) (by omega) hmem
  · rcases hmem with hmem | hmem | hmem | hmem <;> exact hbyte _ (by omega) (by omega) hmem

/-- The code of a literal but the character NUL has no NUL. Kind: L -/
theorem noNul_mangleAstNode {idx : ℕ} {l : Lit} {c : List UInt8} (hl : l ≠ .char 0)
    (hc : mangleAstNode idx l = some c) : NoNul c := by
  cases l with
  | char value =>
      obtain ⟨s, hs, rfl⟩ := Option.map_eq_some_iff.mp hc
      apply NoNul.append (by unfold NoNul; decide)
      exact noNul_printUtf8 (fun hzero => hl (by rw [hzero])) hs
  | integer isNegative uValue =>
      obtain rfl := Option.some.inj hc
      cases isNegative
      · exact NoNul.append (by unfold NoNul; decide) (noNul_decimal _)
      · exact NoNul.append (by unfold NoNul; decide) (noNul_signedDecimal _)
  | null =>
      obtain rfl := Option.some.inj hc
      unfold NoNul
      decide
  | bool value =>
      obtain rfl := Option.some.inj hc
      cases value <;> unfold NoNul <;> decide
  | float bits =>
      obtain rfl := Option.some.inj hc
      exact NoNul.append (by unfold NoNul; decide) (noNul_decimal _)
  | string ptr =>
      obtain rfl := Option.some.inj hc
      exact NoNul.append (by unfold NoNul; decide) (noNul_decimal _)
  | _ => simp [mangleAstNode] at hc

/-- The codes of a list have no NUL when none of them has. Kind: L -/
theorem noNul_mangleTypes {rec : Addr → Option (List UInt8)} {as : List Addr}
    (hrec : ∀ a ∈ as, ∀ c, rec a = some c → NoNul c) {c : List UInt8}
    (hc : mangleTypes rec as = some c) : NoNul c := by
  induction as generalizing c with
  | nil =>
      obtain rfl := Option.some.inj hc
      simp [NoNul]
  | cons a as ih =>
      obtain ⟨c1, hc1, hc⟩ := Option.bind_eq_some_iff.mp hc
      obtain ⟨c2, hc2, hc⟩ := Option.bind_eq_some_iff.mp hc
      obtain rfl := Option.some.inj hc
      apply NoNul.append (hrec a List.mem_cons_self c1 hc1)
      exact ih (fun a ha => hrec a (List.mem_cons_of_mem _ ha)) hc2

/-- No code of a good type is cut short. Kind: L -/
theorem noNul_mangleType : ∀ {n : ℕ} {a : Addr} {c : List UInt8}, Good h live n a →
    mangleType h n a = some c → NoNul c := by
  intro n
  induction n with
  | zero => exact fun ga => absurd ga id
  | succ n ih =>
      rintro a c ⟨x, f, hx, hres, -, gx⟩ hc
      obtain ⟨c', hc', rfl⟩ := mangleType_eq_some hc hx hres
      have hletter : ∀ {b : UInt8} {d : List UInt8}, b ≠ 0 → NoNul d → NoNul (b :: d) := by
        intro b d hb hd hmem
        rcases List.mem_cons.mp hmem with heq | hmem
        · exact hb heq.symm
        · exact hd hmem
      have hstop : NoNul [byte '_'] := by unfold NoNul; decide
      have hcode : NoNul c' := by
        unfold GoodBody at gx
        cases hc' with
        | primitive hbody hs =>
            obtain ⟨i, -, rfl⟩ := primitiveCode_eq_some hs
            have hall : ∀ i : Fin primitiveNames.length, 0 ∉ bytes primitiveNames[i] := by
              decide
            exact hall i
        | string hbody =>
            unfold NoNul
            decide
        | array hbody hd =>
            rw [hbody] at gx
            exact hletter (by decide) ((noNul_decimal _).append (ih gx hd))
        | tuple hbody hd =>
            rw [hbody] at gx
            exact hletter (by decide)
              ((noNul_mangleTypes (fun a ha c hc => ih (gx.1 a ha) hc) hd).append hstop)
        | bigUnion hbody hlen => exact hletter (by decide) ((noNul_decimal _).append hstop)
        | union hbody hlen hd =>
            rw [hbody] at gx
            dsimp only at gx
            rw [if_neg hlen] at gx
            exact hletter (by decide) (hletter (by decide)
              ((noNul_mangleTypes (fun a ha c hc => ih (gx.1 a ha) hc) hd).append hstop))
        | func hbody hd =>
            rw [hbody] at gx
            exact hletter (by decide)
              ((noNul_mangleTypes (fun a ha c hc => ih (gx.2.1 a ha) hc) hd).append hstop)
        | pointer hbody hd =>
            rw [hbody] at gx
            exact hletter (by decide) (ih gx.2 hd)
        | reference hbody hd =>
            rw [hbody] at gx
            exact hletter (by decide) (ih gx hd)
        | literal hbody hd =>
            rw [hbody] at gx
            refine noNul_mangleAstNode ?_ hd
            rintro rfl
            exact gx rfl
        | named hbody => exact hletter (by decide) ((noNul_qualified _).append hstop)
      split_ifs
      · exact hcode
      · exact hletter (by decide) hcode

/-- A base name with its marker can be told from another. -/
def NamesApart (name name' : CString) (isConst isConst' : Bool) : Prop :=
  name ≠ name' → ¬ marked name isConst <+: marked name' isConst' ∧
    ¬ marked name' isConst' <+: marked name isConst

/-- **Equal mangled names have equal base names and the same types**, where the types say all of
themselves, no `char` stands before another type, and names and indices can be told apart.
Source: `mangle.c` `makeMangledName`. Kind: P -/
theorem makeMangledName_injective (happart : Apart h live) {types types' : List Addr}
    {name name' : CString} {isConst isConst' : Bool}
    (hgood : GoodList (Good h live n) (endsInChar h n) types)
    (hgood' : GoodList (Good h live n) (endsInChar h n) types')
    (hnames : NamesApart name name' isConst isConst') {s : List UInt8}
    (hs : makeMangledName h n name types isConst = some s)
    (hs' : makeMangledName h n name' types' isConst' = some s) :
    name = name' ∧ isConst = isConst' ∧
      List.Forall₂ (fun a b => compareTypes h n a b = some true) types types' := by
  obtain ⟨c, hc, hs⟩ := Option.bind_eq_some_iff.mp hs
  obtain ⟨c', hc', hs'⟩ := Option.bind_eq_some_iff.mp hs'
  have hwhole : ∀ {name : CString} {isConst : Bool} {as : List Addr} {c : List UInt8},
      GoodList (Good h live n) (endsInChar h n) as → mangleTypes (mangleType h n) as = some c →
      cstr (marked name isConst ++ c ++ [byte 'E']) = marked name isConst ++ c ++ [byte 'E'] := by
    intro name isConst as c hg hc
    apply cstr_eq
    refine NoNul.append (NoNul.append (NoNul.append name.noNul ?_) ?_) ?_
    · cases isConst <;> unfold NoNul <;> decide
    · exact noNul_mangleTypes (fun a ha c hc => noNul_mangleType (hg.1 a ha) hc) hc
    · unfold NoNul
      decide
  rw [hwhole hgood hc, Option.some.injEq] at hs
  rw [hwhole hgood' hc', Option.some.injEq] at hs'
  have heq := hs.trans hs'.symm
  rw [List.append_assoc, List.append_assoc] at heq
  have hname : name = name' := by
    by_contra hne
    obtain ⟨hno, hno'⟩ := hnames hne
    have hpre : marked name isConst <+: marked name' isConst' ++ (c' ++ [byte 'E']) := ⟨_, heq⟩
    rcases List.prefix_or_prefix_of_prefix hpre (List.prefix_append _ _) with hpre | hpre
    · exact hno hpre
    · exact hno' hpre
  subst hname
  rw [marked, marked, List.append_assoc, List.append_assoc] at heq
  have htail := List.append_cancel_left heq
  have hconst : isConst = isConst' := by
    cases isConst <;> cases isConst'
    · rfl
    · exact absurd (List.cons.inj (List.cons.inj htail).2).1 (by decide)
    · exact absurd (List.cons.inj (List.cons.inj htail).2).1 (by decide)
    · rfl
  subst hconst
  have hcodes := List.append_cancel_left htail
  obtain ⟨hall, -⟩ := mangleTypes_split (mangleType_split happart n)
    (.inr rfl) hgood hgood' hc hc' hcodes
  exact ⟨rfl, rfl, hall⟩

end

/-- `bool`, `char`, and `const bool` at two addresses. -/
def mangleHeap : Heap :=
  heapOf [⟨0, 0, none, none, .primitive 0⟩, ⟨0, 1, none, none, .primitive 2⟩,
    ⟨flgConst, 2, none, none, .wrapped 0⟩, ⟨flgConst, 3, none, none, .wrapped 0⟩]

/-- The base name `f`. -/
def baseName : CString := ⟨[byte 'f'], by decide⟩

/-- The types of `mangleHeap`, and behind them a struct `S`, an enum `T`, and pointers to the two
`const bool`. Kind: D -/
def namedHeap : Heap where
  types := (heapOf [⟨0, 0, none, none, .primitive 0⟩, ⟨0, 1, none, none, .primitive 2⟩,
    ⟨flgConst, 2, none, none, .wrapped 0⟩, ⟨flgConst, 3, none, none, .wrapped 0⟩,
    ⟨0, 4, some 0, none, .struct none⟩, ⟨0, 5, some 1, none, .enum⟩,
    ⟨0, 6, none, none, .pointer 2 false⟩, ⟨0, 7, none, none, .pointer 3 false⟩]).types
  strings p := if p = 0 then bytes ['S'] else bytes ['T']

/-- The types that are written by their names. Kind: D -/
def namedLive : Set Addr := {4, 5}

/-- The types of the sample are apart. Kind: L -/
theorem namedHeap_apart : Apart namedHeap namedLive := by
  constructor
  · rintro x (rfl | rfl) y (rfl | rfl) h
    · rfl
    · exact absurd h (by decide)
    · exact absurd h (by decide)
    · rfl
  · rintro x (rfl | rfl) y (rfl | rfl) - - h
    · rfl
    · exact absurd h (by decide)
    · exact absurd h (by decide)
    · rfl

/-- A pointer to `const bool`. Kind: L -/
theorem good_pointer {a : Addr} (ha : a = 6 ∨ a = 7) : Good namedHeap namedLive 4 a := by
  have hconst : ∀ b, b = 2 ∨ b = 3 → Good namedHeap namedLive 3 b := by
    rintro b (rfl | rfl)
    · exact ⟨0, flgConst, by decide, by decide, .inr (by decide), trivial⟩
    · exact ⟨0, flgConst, by decide, by decide, .inr (by decide), trivial⟩
  rcases ha with rfl | rfl
  · exact ⟨6, 0, by decide, by decide, .inl (by decide), rfl, hconst 2 (.inl rfl)⟩
  · exact ⟨7, 0, by decide, by decide, .inl (by decide), rfl, hconst 3 (.inr rfl)⟩

/-- A pointer to `const bool`, `S`, `T` and `char`. Kind: L -/
theorem good_named {a : Addr} (ha : a = 6 ∨ a = 7) :
    GoodList (Good namedHeap namedLive 4) (endsInChar namedHeap 4) [a, 4, 5, 1] := by
  constructor
  · rw [List.forall_mem_cons, List.forall_mem_cons, List.forall_mem_cons, List.forall_mem_singleton]
    exact ⟨good_pointer ha, ⟨4, 0, by decide, by decide, .inl (by decide), .inl rfl⟩,
      ⟨5, 0, by decide, by decide, .inl (by decide), .inr rfl⟩,
      ⟨1, 0, by decide, by decide, .inl (by decide), trivial⟩⟩
  · rcases ha with rfl | rfl <;> decide

/-- The names of `f` for a pointer to `const bool`, `S`, `T` and `char` are equal for both pointers,
and so are the types. Kind: P -/
theorem makeMangledName_injective_named :
    makeMangledName namedHeap 4 baseName [6, 4, 5, 1] false =
        makeMangledName namedHeap 4 baseName [7, 4, 5, 1] false ∧
      List.Forall₂ (fun a b => compareTypes namedHeap 4 a b = some true) [6, 4, 5, 1]
        [7, 4, 5, 1] := by
  have hs : makeMangledName namedHeap 4 baseName [6, 4, 5, 1] false =
      some (bytes ['f', 'I', '_', 'P', 'c', 'b', 'Z', 'S', '_', 'Z', 'T', '_', 'c', 'E']) := by
    decide
  have hs' : makeMangledName namedHeap 4 baseName [7, 4, 5, 1] false =
      some (bytes ['f', 'I', '_', 'P', 'c', 'b', 'Z', 'S', '_', 'Z', 'T', '_', 'c', 'E']) := by
    decide
  exact ⟨hs.trans hs'.symm, (makeMangledName_injective namedHeap_apart (good_named (.inl rfl))
    (good_named (.inr rfl)) (fun hne => absurd rfl hne) hs hs').2.2⟩

/-- **A `char` before a type reads like a `const`**: `f` of `char` and `bool` and `f` of `const
bool` have one name. Kind: P -/
theorem char_is_const :
    makeMangledName mangleHeap 2 baseName [1, 0] false = some
      (bytes ['f', 'I', '_', 'c', 'b', 'E']) ∧
      makeMangledName mangleHeap 2 baseName [2] false = some
        (bytes ['f', 'I', '_', 'c', 'b', 'E']) ∧
      ¬ List.Forall₂ (fun a b => compareTypes mangleHeap 2 a b = some true) [1, 0] [2] := by
  refine ⟨by decide, by decide, fun h => ?_⟩
  exact absurd h.length_eq (by simp)

end CxyCompiler.Middle.Mangle
