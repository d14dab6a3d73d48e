import Mathlib.Data.List.DropRight
import Mathlib.Data.Nat.Notation
import CxyCompiler.Lib.Loop

/-!
# Bit flags on the command line

`args.c` reads the value of a bit flag argument: names of a table with `|` between them, in any
letter case and with white space around them.

* `bitFlagsRound`: one round of the loop.
* `denotes`: what a text stands for, each piece between the `|` without the white space around it.
* `leaves_iff`: what the loop leaves with, piece by piece (`outcome`).
* **`parses_iff`**: the loop ends with what the text stands for exactly if `Right` holds of its
  pieces. A piece of one character with a `|` behind it keeps the loop where it is; a blank piece is
  skipped; the last piece is taken with the white space behind it.

Source: `core/args.c`.
-/

namespace CxyCompiler.Core.BitFlags

open CxyCompiler.Lib.Loop

/-! ## The source -/

/-- Source: `isspace`. -/
def isspace (c : Char) : Bool :=
  c == ' ' || c == '\t' || c == '\n' || c == '\x0b' || c == '\x0c' || c == '\r'

def isSeparator (c : Char) : Bool := c == '|' || isspace c

/-- From the first such character on. Source: `strchr`. -/
def strchr (str : List Char) (c : Char) : Option (List Char) :=
  match str.dropWhile (· != c) with
  | [] => none
  | next => some next

/-- Source: `strncasecmp`. -/
def strncasecmp : List Char → List Char → ℕ → ℤ
  | _, _, 0 => 0
  | [], [], _ + 1 => 0
  | [], b :: _, _ + 1 => -(b.toLower.toNat : ℤ)
  | a :: _, [], _ + 1 => a.toLower.toNat
  | a :: as, b :: bs, n + 1 =>
      if a.toLower = b.toLower then strncasecmp as bs n
      else (a.toLower.toNat : ℤ) - b.toLower.toNat

/-- Source: `args.h` `CmdBitFlagDesc`. -/
structure CmdBitFlagDesc where
  name : List Char
  value : UInt32

/-- A table of flag names: a name is not empty and no white space ends it. -/
structure Table where
  descs : List CmdBitFlagDesc
  word : ∀ d ∈ descs, ∃ c ∈ d.name.getLast?, isspace c = false

/-- How far the end of a piece stands behind its start: back over white space, but not behind the
start. -/
def pieceEnd (str : List Char) : ℕ → ℕ
  | 0 => 0
  | e + 1 => if isspace (str.getD (e + 1) '|') then pieceEnd str e else e + 1

/-- The first flag whose name is the first characters of a text. -/
def findFlag (table : Table) (str : List Char) (size : ℕ) : Option UInt32 :=
  (table.descs.find? fun d => size == d.name.length && strncasecmp str d.name size == 0).map
    CmdBitFlagDesc.value

structure Scan where
  str : Option (List Char)
  value : UInt32

def notSupported (piece name : List Char) : List Char :=
  '\'' :: piece ++ "' is not a supported bit flags for argument '".toList ++ name ++ ['\'', '\n']

/-- The end of a round: the piece is looked up, the scan goes on at `next`. -/
def takePiece (table : Table) (name str : List Char) (size : ℕ) (next : Option (List Char))
    (value : UInt32) : Except (List Char) UInt32 ⊕ Scan :=
  match findFlag table str size with
  | some flag => .inr ⟨next, value ||| flag⟩
  | none => .inl (.error (notSupported (str.take size) name))

/-- Source: the loop of `args.c` `cmdParseBitFlags`. -/
def bitFlagsRound (table : Table) (name : List Char) (s : Scan) :
    Option (Except (List Char) UInt32 ⊕ Scan) :=
  match s.str with
  | none => some (.inl (.ok s.value))
  | some str =>
      let str := str.dropWhile isSeparator
      match strchr str '|' with
      | some next =>
          let e := pieceEnd str (str.length - next.length - 1)
          if e = 0 then some (.inr ⟨some str, s.value⟩)
          else some (takePiece table name str (e + 1) (some next) s.value)
      | none => some (takePiece table name str str.length none s.value)

/-- Source: `args.c` `cmdParseBitFlags`. -/
def ParsesBitFlags (table : Table) (name str : List Char)
    (r : Except (List Char) UInt32) : Prop :=
  Leaves (bitFlagsRound table name) ⟨some str, 0⟩ r

/-! ## What a text stands for -/

def ltrim (p : List Char) : List Char := p.dropWhile isspace

/-- Without the white space around it. -/
def trim (p : List Char) : List Char := (ltrim p).rdropWhile isspace

/-- The value of a name in any letter case. -/
def valueOf (table : Table) (name : List Char) : Option UInt32 :=
  (table.descs.find? fun d => name.map Char.toLower == d.name.map Char.toLower).map
    CmdBitFlagDesc.value

/-- The names between the `|`, their values put together. -/
def denotes (table : Table) (str : List Char) : Option UInt32 :=
  ((str.splitOn '|').mapM fun p => valueOf table (trim p)).map (List.foldr (· ||| ·) 0)

/-! ## When the source reads it right -/

/-- The loop ends and refuses the pieces. -/
def Refused (table : Table) : List (List Char) → Prop
  | [] => False
  | [p] => ltrim p ≠ trim p ∨ valueOf table (trim p) = none
  | p :: rest =>
      if trim p = [] then Refused table rest
      else (trim p).length ≠ 1 ∧ (valueOf table (trim p) = none ∨ Refused table rest)

/-- The loop ends with what the pieces stand for. -/
def Right (table : Table) : List (List Char) → Prop
  | [] => True
  | [p] => ltrim p = trim p ∨ valueOf table (trim p) = none
  | p :: rest =>
      if trim p = [] then Refused table rest
      else (trim p).length ≠ 1 ∧ (valueOf table (trim p) = none ∨ Right table rest)

/-! ## Names -/

theorem isspace_of_lt {c : Char} (h : 32 < c.toNat) : isspace c = false := by
  rw [Bool.eq_false_iff]
  intro hspace
  unfold isspace at hspace
  simp only [Bool.or_eq_true, beq_iff_eq] at hspace
  rcases hspace with ((((rfl | rfl) | rfl) | rfl) | rfl) | rfl <;> exact absurd h (by decide)

theorem isspace_toLower (c : Char) : isspace c.toLower = isspace c := by
  unfold Char.toLower
  split
  next hupper =>
    have hlow : 65 ≤ c.val.toNat := hupper.1
    have hhigh : c.val.toNat ≤ 90 := hupper.2
    have hsum : (c.val + ('a'.val - 'A'.val)).toNat = c.val.toNat + 32 := by
      rw [UInt32.toNat_add]
      exact Nat.mod_eq_of_lt (by show c.val.toNat + 32 < 4294967296; omega)
    have hspace : isspace c = false := isspace_of_lt (show 32 < c.val.toNat by omega)
    rw [hspace]
    apply isspace_of_lt
    show 32 < (c.val + ('a'.val - 'A'.val)).toNat
    omega
  next => rfl

theorem strncasecmp_eq_zero : ∀ (b a : List Char), b.length ≤ a.length →
    (strncasecmp a b b.length = 0 ↔ (a.take b.length).map Char.toLower = b.map Char.toLower)
  | [], a, _ => by
      unfold strncasecmp
      simp only [List.length_nil, List.take_zero, List.map_nil]
  | b :: bs, [], h => absurd h (Nat.not_succ_le_zero _)
  | b :: bs, a :: as, h => by
      have ih := strncasecmp_eq_zero bs as (Nat.le_of_succ_le_succ h)
      simp only [List.length_cons, List.take_succ_cons, List.map_cons, List.cons.injEq]
      unfold strncasecmp
      by_cases hab : a.toLower = b.toLower
      · rw [if_pos hab, ih]
        exact (and_iff_right hab).symm
      · rw [if_neg hab]
        constructor
        · intro heq
          refine absurd (Char.ext (UInt32.toNat_inj.mp ?_)) hab
          exact Int.ofNat_inj.mp (Int.eq_of_sub_eq_zero heq)
        · exact fun heq => absurd heq.1 hab

/-- The lookup is by the first characters. Kind: L -/
theorem findFlag_eq (table : Table) {str : List Char} {size : ℕ} (hsize : size ≤ str.length) :
    findFlag table str size = valueOf table (str.take size) := by
  unfold findFlag valueOf
  congr 2
  funext d
  rw [Bool.eq_iff_iff, Bool.and_eq_true, beq_iff_eq, beq_iff_eq, beq_iff_eq]
  constructor
  · rintro ⟨rfl, hcmp⟩
    exact (strncasecmp_eq_zero d.name str hsize).mp hcmp
  · intro heq
    have hlength := congrArg List.length heq
    rw [List.length_map, List.length_map, List.length_take, min_eq_left hsize] at hlength
    subst hlength
    exact ⟨rfl, (strncasecmp_eq_zero d.name str hsize).mpr heq⟩

theorem valueOf_eq_none (table : Table) {p : List Char}
    (hp : ∀ c ∈ p.getLast?, isspace c = true) : valueOf table p = none := by
  unfold valueOf
  rw [Option.map_eq_none_iff, List.find?_eq_none]
  intro d hd heq
  obtain ⟨c, hc, hspace⟩ := table.word d hd
  have hlast := congrArg List.getLast? (eq_of_beq heq)
  rw [List.getLast?_map, List.getLast?_map, hc, Option.map_some] at hlast
  obtain ⟨b, hb, hbc⟩ := Option.map_eq_some_iff.mp hlast
  have hb' := hp b hb
  rw [← isspace_toLower, hbc, isspace_toLower, hspace] at hb'
  cases hb'

/-! ## One piece -/

theorem isSeparator_of_ne {c : Char} (h : c ≠ '|') : isSeparator c = isspace c := by
  unfold isSeparator
  rw [beq_false_of_ne h, Bool.false_or]

theorem skip_bar (t : List Char) : ('|' :: t).dropWhile isSeparator = t.dropWhile isSeparator := rfl

/-- White space and separators in front of a text are skipped. Kind: L -/
theorem skip_blank : ∀ {p : List Char} (t : List Char), '|' ∉ p → ltrim p = [] →
    (p ++ t).dropWhile isSeparator = t.dropWhile isSeparator
  | [], _, _, _ => rfl
  | c :: p, t, hbar, hblank => by
      have hc : c ≠ '|' := fun h => hbar (h ▸ List.mem_cons_self ..)
      unfold ltrim at hblank
      rw [List.dropWhile_cons] at hblank
      by_cases hspace : isspace c = true
      · rw [if_pos hspace] at hblank
        rw [List.cons_append, List.dropWhile_cons, isSeparator_of_ne hc, if_pos hspace]
        exact skip_blank t (fun h => hbar (List.mem_cons_of_mem c h)) hblank
      · rw [if_neg hspace] at hblank
        cases hblank

theorem skip_word : ∀ {p : List Char} (t : List Char), '|' ∉ p → ltrim p ≠ [] →
    (p ++ t).dropWhile isSeparator = ltrim p ++ t
  | [], _, _, hword => absurd rfl hword
  | c :: p, t, hbar, hword => by
      have hc : c ≠ '|' := fun h => hbar (h ▸ List.mem_cons_self ..)
      unfold ltrim at hword ⊢
      rw [List.dropWhile_cons] at hword
      rw [List.cons_append, List.dropWhile_cons, List.dropWhile_cons, isSeparator_of_ne hc]
      by_cases hspace : isspace c = true
      · rw [if_pos hspace] at hword
        rw [if_pos hspace, if_pos hspace]
        exact skip_word t (fun h => hbar (List.mem_cons_of_mem c h)) hword
      · rw [if_neg hspace, if_neg hspace, List.cons_append]

theorem skip_last {p : List Char} (hbar : '|' ∉ p) : p.dropWhile isSeparator = ltrim p := by
  by_cases hblank : ltrim p = []
  · have h := skip_blank [] hbar hblank
    rw [List.append_nil] at h
    rw [h, hblank]
    rfl
  · have h := skip_word [] hbar hblank
    rw [List.append_nil, List.append_nil] at h
    exact h

theorem strchr_none {p : List Char} {c : Char} (h : c ∉ p) : strchr p c = none := by
  have hdrop : p.dropWhile (· != c) = [] := by
    rw [List.dropWhile_eq_nil_iff]
    intro b hb
    exact bne_iff_ne.mpr fun heq => h (heq ▸ hb)
  unfold strchr
  rw [hdrop]

theorem strchr_append {p rest : List Char} {c : Char} (h : c ∉ p) :
    strchr (p ++ c :: rest) c = some (c :: rest) := by
  have hdrop : (p ++ c :: rest).dropWhile (· != c) = c :: rest := by
    have hp : ∀ b ∈ p, (b != c) = true := by
      rintro b hb
      exact bne_iff_ne.mpr fun heq => h (heq ▸ hb)
    rw [List.dropWhile_append_of_pos hp, List.dropWhile_cons, bne_self_eq_false]
    rfl
  unfold strchr
  rw [hdrop]

/-- The end of a piece is behind its last character that is no white space. Kind: L -/
theorem pieceEnd_eq {c : Char} (hc : isspace c = false) (q : List Char) : ∀ t,
    pieceEnd (c :: q ++ t) q.length + 1 = ((c :: q).rdropWhile isspace).length := by
  induction q using List.reverseRecOn with
  | nil =>
      intro t
      rw [List.rdropWhile_singleton, hc]
      rfl
  | append_singleton q x ih =>
      intro t
      have hget : (c :: (q ++ [x]) ++ t).getD (q.length + 1) '|' = x := by
        rw [List.getD_eq_getElem?_getD, List.cons_append,
          List.getElem?_cons_succ, List.append_assoc,
          List.getElem?_append_right (le_refl _), Nat.sub_self]
        rfl
      rw [List.length_append, List.length_singleton]
      unfold pieceEnd
      rw [hget, ← List.cons_append]
      by_cases hx : isspace x = true
      · rw [if_pos hx, List.rdropWhile_concat_pos _ _ _ hx, ← ih (x :: t), List.append_assoc]
        rfl
      · rw [if_neg hx, List.rdropWhile_concat_neg _ _ _ hx, List.length_append, List.length_cons]
        rfl

/-- What a piece is without the white space at its start begins with a character that is none.
Kind: L -/
theorem ltrim_cons {p q : List Char} {c : Char} (h : ltrim p = c :: q) : isspace c = false := by
  have hhead := List.head?_dropWhile_not isspace p
  unfold ltrim at h
  rw [h] at hhead
  exact hhead

theorem trim_eq_nil {p : List Char} : trim p = [] ↔ ltrim p = [] := by
  constructor
  · intro h
    unfold trim at h
    rw [List.rdropWhile_eq_nil_iff] at h
    cases hl : ltrim p with
    | nil => rfl
    | cons c q =>
        have hc := ltrim_cons hl
        rw [h c (by rw [hl]; exact List.mem_cons_self ..)] at hc
        cases hc
  · intro h
    unfold trim
    rw [h, List.rdropWhile_nil]

theorem ltrim_ltrim (p : List Char) : ltrim (ltrim p) = ltrim p :=
  List.dropWhile_idempotent isspace p

theorem not_mem_ltrim {p : List Char} (h : '|' ∉ p) : '|' ∉ ltrim p :=
  fun hmem => h ((List.dropWhile_sublist isspace).subset hmem)

variable {table : Table} {name : List Char}

/-- Only what is behind the separators in front matters to a round. Kind: L -/
theorem round_congr {str str' : List Char} (v : UInt32)
    (h : str.dropWhile isSeparator = str'.dropWhile isSeparator) :
    bitFlagsRound table name ⟨some str, v⟩ = bitFlagsRound table name ⟨some str', v⟩ := by
  unfold bitFlagsRound
  dsimp only
  rw [h]

theorem round_last {p : List Char} (hbar : '|' ∉ p) (v : UInt32) :
    bitFlagsRound table name ⟨some p, v⟩ =
      some (takePiece table name (ltrim p) (ltrim p).length none v) := by
  unfold bitFlagsRound
  dsimp only
  rw [skip_last hbar, strchr_none (not_mem_ltrim hbar)]

/-- A round at a piece with a `|` behind it: of one character it stays where it is. Kind: L -/
theorem round_piece {p : List Char} (hbar : '|' ∉ p) (hword : ltrim p ≠ []) (rest : List Char)
    (v : UInt32) :
    bitFlagsRound table name ⟨some (p ++ '|' :: rest), v⟩ =
      if (trim p).length = 1 then some (.inr ⟨some (ltrim p ++ '|' :: rest), v⟩)
      else some (takePiece table name (ltrim p ++ '|' :: rest) (trim p).length
        (some ('|' :: rest)) v) := by
  obtain ⟨c, q, hl⟩ := List.exists_cons_of_ne_nil hword
  have hend := pieceEnd_eq (ltrim_cons hl) q ('|' :: rest)
  have hlen : (ltrim p ++ '|' :: rest).length - ('|' :: rest).length - 1 = q.length := by
    rw [List.length_append, Nat.add_sub_cancel, hl]
    rfl
  unfold bitFlagsRound
  dsimp only
  rw [skip_word _ hbar hword, strchr_append (not_mem_ltrim hbar)]
  dsimp only
  rw [hlen]
  unfold trim
  rw [hl, ← hend]
  by_cases hone : pieceEnd (c :: q ++ '|' :: rest) q.length = 0
  · rw [if_pos hone, if_pos (by rw [hone])]
  · rw [if_neg hone, if_neg (by omega)]

/-! ## The loop -/

/-- What the loop makes of the pieces: `none` when it does not end, `some none` when it refuses
them. -/
def outcome (table : Table) : UInt32 → List (List Char) → Option (Option UInt32)
  | v, [] => some (some v)
  | v, [p] => some ((valueOf table (ltrim p)).map (v ||| ·))
  | v, p :: rest =>
      if trim p = [] then outcome table v rest
      else if (trim p).length = 1 then none
      else (valueOf table (trim p)).elim (some none) fun flag => outcome table (v ||| flag) rest

/-- The pieces of a text, from its first `|` on. Kind: L -/
theorem pieces_induction {motive : List Char → Prop} (last : ∀ p, '|' ∉ p → motive p)
    (more : ∀ p rest, '|' ∉ p → motive rest → motive (p ++ '|' :: rest)) (str : List Char) :
    motive str := by
  induction hn : str.length using Nat.strong_induction_on generalizing str with
  | _ n ih =>
      by_cases hbar : '|' ∈ str
      · obtain ⟨p, rest, heq, hp⟩ := List.eq_append_cons_of_mem hbar
        subst heq hn
        apply more p rest hp
        apply ih rest.length _ rest rfl
        rw [List.length_append, List.length_cons]
        omega
      · exact last str hbar

theorem takePiece_eq {str : List Char} {size : ℕ} (hsize : size ≤ str.length)
    (next : Option (List Char)) (v : UInt32) :
    takePiece table name str size next v =
      (valueOf table (str.take size)).elim (.inl (.error (notSupported (str.take size) name)))
        fun flag => .inr ⟨next, v ||| flag⟩ := by
  unfold takePiece
  rw [findFlag_eq table hsize]
  cases valueOf table (str.take size) <;> rfl

theorem trim_length_le (p : List Char) : (trim p).length ≤ (ltrim p).length :=
  (List.rdropWhile_prefix isspace (ltrim p)).length_le

theorem take_trim (p t : List Char) : (ltrim p ++ t).take (trim p).length = trim p := by
  obtain ⟨q, hq⟩ := List.rdropWhile_prefix isspace (ltrim p)
  have hsplit : ltrim p = trim p ++ q := hq.symm
  rw [hsplit, List.append_assoc]
  exact List.take_left

theorem outcome_cons (v : UInt32) (p : List Char) {rest : List (List Char)} (hrest : rest ≠ []) :
    outcome table v (p :: rest) =
      if trim p = [] then outcome table v rest
      else if (trim p).length = 1 then none
      else (valueOf table (trim p)).elim (some none) fun flag =>
        outcome table (v ||| flag) rest := by
  obtain ⟨q, qs, rfl⟩ := List.exists_cons_of_ne_nil hrest
  rfl

/-- The loop leaves with the error or goes on, as the piece is looked up. Kind: L -/
theorem leaves_elim {s : Scan} {f : Option UInt32} {e : List Char} {go : UInt32 → Scan}
    {out : UInt32 → Option (Option UInt32)} {o : Option UInt32}
    (h : bitFlagsRound table name s = some (f.elim (.inl (.error e)) fun flag => .inr (go flag)))
    (hgo : ∀ flag, (∃ r, Leaves (bitFlagsRound table name) (go flag) r ∧ r.toOption = o) ↔
      out flag = some o) :
    (∃ r, Leaves (bitFlagsRound table name) s r ∧ r.toOption = o) ↔
      f.elim (some none) out = some o := by
  cases f with
  | none =>
      have hleaves : Leaves (bitFlagsRound table name) s (.error e) := leaves_of_inl h
      constructor
      · rintro ⟨r, hr, rfl⟩
        rw [leaves_unique hr hleaves]
        rfl
      · intro ho
        exact ⟨.error e, hleaves, Option.some.inj ho⟩
  | some flag =>
      have hstep : ∀ r, Leaves (bitFlagsRound table name) s r ↔
          Leaves (bitFlagsRound table name) (go flag) r := fun r => leaves_iff_of_inr h
      simp only [hstep]
      exact hgo flag

/-- The loop ends once no text is left. Kind: L -/
theorem leaves_end (v : UInt32) (o : Option UInt32) :
    (∃ r, Leaves (bitFlagsRound table name) ⟨none, v⟩ r ∧ r.toOption = o) ↔
      some (some v) = some o := by
  have hleaves : Leaves (bitFlagsRound table name) ⟨none, v⟩ (.ok v) := leaves_of_inl rfl
  constructor
  · rintro ⟨r, hr, rfl⟩
    rw [leaves_unique hr hleaves]
    rfl
  · intro ho
    exact ⟨.ok v, hleaves, Option.some.inj ho⟩

/-- **What the loop leaves with, piece by piece.** Kind: P -/
theorem leaves_iff (str : List Char) : ∀ (v : UInt32) (o : Option UInt32),
    (∃ r, Leaves (bitFlagsRound table name) ⟨some str, v⟩ r ∧ r.toOption = o) ↔
      outcome table v (str.splitOn '|') = some o := by
  induction str using pieces_induction with
  | last p hbar =>
      intro v o
      have hround := @round_last table name p hbar v
      rw [takePiece_eq (le_refl _), List.take_length] at hround
      rw [List.splitOn_eq_singleton hbar, leaves_elim hround fun flag => leaves_end (v ||| flag) o]
      unfold outcome
      cases valueOf table (ltrim p) <;> rfl
  | more p rest hbar ih =>
      intro v o
      have hbehind : ∀ w, (∃ r, Leaves (bitFlagsRound table name) ⟨some ('|' :: rest), w⟩ r ∧
          r.toOption = o) ↔ outcome table w (rest.splitOn '|') = some o := by
        intro w
        simp only [← ih w o]
        apply exists_congr
        intro r
        rw [leaves_congr (round_congr w (skip_bar rest))]
      rw [List.splitOn_append_cons_self_of_not_mem hbar,
        outcome_cons v p (List.splitOn_ne_nil '|' rest)]
      by_cases hblank : trim p = []
      · rw [if_pos hblank, ← hbehind v]
        apply exists_congr
        intro r
        rw [leaves_congr (round_congr v (skip_blank _ hbar (trim_eq_nil.mp hblank)))]
      rw [if_neg hblank]
      have hword : ltrim p ≠ [] := fun h => hblank (trim_eq_nil.mpr h)
      have hround := @round_piece table name p hbar hword rest v
      by_cases hone : (trim p).length = 1
      · rw [if_pos hone] at hround ⊢
        have hstay := @round_piece table name (ltrim p) (not_mem_ltrim hbar)
          (by rw [ltrim_ltrim]; exact hword) rest v
        unfold trim at hstay hone
        rw [ltrim_ltrim, if_pos hone] at hstay
        constructor
        · rintro ⟨r, hr, -⟩
          exact absurd ((leaves_iff_of_inr hround).mp hr) (not_leaves_of_stays hstay)
        · intro h
          cases h
      · rw [if_neg hone] at hround ⊢
        rw [takePiece_eq, take_trim] at hround
        · exact leaves_elim hround fun flag => hbehind (v ||| flag)
        · rw [List.length_append]
          exact (trim_length_le p).trans (Nat.le_add_right ..)

/-! ## When it is right -/

/-- What pieces stand for. -/
def denotesPieces (table : Table) (ps : List (List Char)) : Option UInt32 :=
  (ps.mapM fun p => valueOf table (trim p)).map (List.foldr (· ||| ·) 0)

theorem denotesPieces_cons (p : List Char) (ps : List (List Char)) :
    denotesPieces table (p :: ps) =
      (valueOf table (trim p)).bind fun a => (denotesPieces table ps).map (a ||| ·) := by
  unfold denotesPieces
  rw [List.mapM_cons]
  cases valueOf table (trim p) with
  | none => rfl
  | some a => cases ps.mapM fun p => valueOf table (trim p) <;> rfl

theorem valueOf_nil : valueOf table [] = none := by
  apply valueOf_eq_none
  intro c hc
  cases hc

/-- A name with white space behind it is none of the table. Kind: L -/
theorem valueOf_ltrim {p : List Char} (h : ltrim p ≠ trim p) : valueOf table (ltrim p) = none := by
  apply valueOf_eq_none
  intro c hc
  by_contra hspace
  apply h
  symm
  apply List.rdropWhile_eq_self_iff.mpr
  intro hne
  rw [List.getLast?_eq_some_getLast hne] at hc
  rw [Option.some.inj hc]
  exact hspace

theorem refused_iff : ∀ (ps : List (List Char)) (v : UInt32), ps ≠ [] →
    (outcome table v ps = some none ↔ Refused table ps)
  | [], _, h => absurd rfl h
  | [p], v, _ => by
      unfold outcome Refused
      rw [Option.some.injEq, Option.map_eq_none_iff]
      by_cases heq : ltrim p = trim p
      · rw [heq]
        exact (or_iff_right (not_not_intro rfl)).symm
      · exact iff_of_true (valueOf_ltrim heq) (.inl heq)
  | p :: q :: rest, v, _ => by
      have ih := fun w => refused_iff (q :: rest) w (List.cons_ne_nil _ _)
      unfold outcome Refused
      by_cases hblank : trim p = []
      · rw [if_pos hblank, if_pos hblank]
        exact ih v
      rw [if_neg hblank, if_neg hblank]
      by_cases hone : (trim p).length = 1
      · rw [if_pos hone]
        exact iff_of_false (Option.some_ne_none _).symm fun h => h.1 hone
      rw [if_neg hone]
      cases hvalue : valueOf table (trim p) with
      | none => exact iff_of_true rfl ⟨hone, .inl rfl⟩
      | some flag =>
          rw [Option.elim_some, ih]
          constructor
          · exact fun h => ⟨hone, .inr h⟩
          · rintro ⟨-, h | h⟩
            · cases h
            · exact h

theorem right_iff : ∀ (ps : List (List Char)) (v : UInt32), ps ≠ [] →
    (outcome table v ps = some ((denotesPieces table ps).map (v ||| ·)) ↔ Right table ps)
  | [], _, h => absurd rfl h
  | [p], v, _ => by
      rw [denotesPieces_cons]
      unfold outcome Right
      by_cases heq : ltrim p = trim p
      · rw [heq]
        refine iff_of_true ?_ (.inl rfl)
        cases valueOf table (trim p) with
        | none => rfl
        | some a =>
            show some (some (v ||| a)) = some (some (v ||| (a ||| 0)))
            rw [UInt32.or_zero]
      · rw [valueOf_ltrim heq]
        cases valueOf table (trim p) with
        | none => exact iff_of_true rfl (.inr rfl)
        | some a =>
            apply iff_of_false
            · exact fun h => Option.some_ne_none _ (Option.some.inj h).symm
            · rintro (h | h)
              · exact heq h
              · cases h
  | p :: q :: rest, v, _ => by
      have hne : q :: rest ≠ [] := List.cons_ne_nil _ _
      have ih := fun w => right_iff (q :: rest) w hne
      rw [denotesPieces_cons]
      unfold outcome Right
      by_cases hblank : trim p = []
      · rw [if_pos hblank, if_pos hblank, hblank, valueOf_nil]
        exact refused_iff (q :: rest) v hne
      rw [if_neg hblank, if_neg hblank]
      by_cases hone : (trim p).length = 1
      · rw [if_pos hone]
        exact iff_of_false (Option.some_ne_none _).symm fun h => h.1 hone
      rw [if_neg hone]
      cases hvalue : valueOf table (trim p) with
      | none => exact iff_of_true rfl ⟨hone, .inl rfl⟩
      | some flag =>
          have hor : ((denotesPieces table (q :: rest)).map (flag ||| ·)).map (v ||| ·) =
              (denotesPieces table (q :: rest)).map (v ||| flag ||| ·) := by
            rw [Option.map_map]
            congr 1
            funext a
            exact (UInt32.or_assoc ..).symm
          rw [Option.elim_some, Option.bind_some, hor, ih]
          constructor
          · exact fun h => ⟨hone, .inr h⟩
          · rintro ⟨-, h | h⟩
            · cases h
            · exact h

/-- **The loop ends with what the text stands for exactly if its pieces are right**: where it comes,
no piece in front of a `|` has one character, none is blank unless the rest is refused, and the last
is no name with white space behind it. Kind: P -/
theorem parses_iff (table : Table) (name str : List Char) :
    (∃ r, ParsesBitFlags table name str r ∧ r.toOption = denotes table str) ↔
      Right table (str.splitOn '|') := by
  have hzero : denotes table str = (denotesPieces table (str.splitOn '|')).map (0 ||| ·) := by
    have hid : (fun a : UInt32 => 0 ||| a) = id := funext fun a => UInt32.zero_or
    rw [hid, Option.map_id]
    rfl
  rw [← right_iff (str.splitOn '|') 0 (List.splitOn_ne_nil '|' str), ← hzero]
  exact leaves_iff str 0 (denotes table str)

def oneAndTwo : Table where
  descs := [⟨['a'], 1⟩, ⟨['b', 'b'], 2⟩]
  word := List.forall_mem_cons.mpr ⟨⟨'a', rfl, by decide⟩,
    List.forall_mem_singleton.mpr ⟨'b', rfl, by decide⟩⟩

/-- `a|bb` stands for two flags, and the loop does not end. Kind: P -/
theorem one_letter_does_not_end :
    denotes oneAndTwo ['a', '|', 'b', 'b'] = some 3 ∧
      ∀ name r, ¬ ParsesBitFlags oneAndTwo name ['a', '|', 'b', 'b'] r := by
  refine ⟨by decide, fun name r hr => ?_⟩
  have h := (leaves_iff ['a', '|', 'b', 'b'] 0 r.toOption).mp ⟨r, hr, rfl⟩
  have hnone : outcome oneAndTwo 0 (['a', '|', 'b', 'b'].splitOn '|') = none := by decide
  rw [hnone] at h
  cases h

end CxyCompiler.Core.BitFlags
