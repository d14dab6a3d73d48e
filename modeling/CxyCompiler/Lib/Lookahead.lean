import Mathlib.Data.List.Basic

/-!
# Token sources and windows of two tokens

A source of tokens is a function from a state to the next token and the state behind it. A window
holds the current token and the next one, which have been taken from the source.

* `Yields take s ts` — the source yields `ts` from `s` on.
* `Window.Reads take w ts` — the window is at the beginning of `ts`.
* `Window.Reads.advance` — **advancing a window goes one token further**.
-/

namespace CxyCompiler.Lib

variable {σ τ : Type}

/-- The source yields these tokens, and maybe more. -/
def Yields (take : σ → Option (τ × σ)) : σ → List τ → Prop
  | _, [] => True
  | s, t :: ts => ∃ s', take s = some (t, s') ∧ Yields take s' ts

variable {take : σ → Option (τ × σ)}

/-- States from which the source takes the same step yield the same tokens. Kind: L -/
theorem Yields.congr {s s' : σ} {ts : List τ} (h : take s = take s') (hy : Yields take s ts) :
    Yields take s' ts := by
  cases ts with
  | nil => trivial
  | cons t ts =>
      obtain ⟨u, hu, hts⟩ := hy
      exact ⟨u, h ▸ hu, hts⟩

/-- The current token, the next one, and the source behind it. -/
structure Window (σ τ : Type) where
  current : τ
  next : τ
  source : σ

namespace Window

/-- The first window on a source. -/
def start (take : σ → Option (τ × σ)) (s : σ) : Option (Window σ τ) :=
  (take s).bind fun t => (take t.2).map fun u => ⟨t.1, u.1, u.2⟩

def advance (take : σ → Option (τ × σ)) (w : Window σ τ) : Option (Window σ τ) :=
  (take w.source).map fun u => ⟨w.next, u.1, u.2⟩

/-- The window is at the beginning of these tokens. -/
def Reads (take : σ → Option (τ × σ)) (w : Window σ τ) : List τ → Prop
  | [] => True
  | [t] => w.current = t
  | t :: u :: ts => w.current = t ∧ w.next = u ∧ Yields take w.source ts

theorem Reads.current {w : Window σ τ} {t : τ} {ts : List τ} (h : Reads take w (t :: ts)) :
    w.current = t := by
  cases ts with
  | nil => exact h
  | cons u ts => exact h.1

theorem Reads.peek {w : Window σ τ} {t u : τ} {ts : List τ} (h : Reads take w (t :: u :: ts)) :
    w.next = u := h.2.1

/-- **Advancing a window goes one token further.** Kind: L -/
theorem Reads.advance {w : Window σ τ} {t u v : τ} {ts : List τ}
    (h : Reads take w (t :: u :: v :: ts)) :
    ∃ w', w.advance take = some w' ∧ Reads take w' (u :: v :: ts) := by
  obtain ⟨-, hnext, s, hs, hts⟩ := h
  exact ⟨⟨w.next, v, s⟩, by simp [Window.advance, hs], hnext, rfl, hts⟩

theorem Reads.start {s : σ} {t u : τ} {ts : List τ} (h : Yields take s (t :: u :: ts)) :
    ∃ w, start take s = some w ∧ Reads take w (t :: u :: ts) := by
  obtain ⟨s₁, h₁, s₂, h₂, hts⟩ := h
  exact ⟨⟨t, u, s₂⟩, by simp [Window.start, h₁, h₂], rfl, rfl, hts⟩

end Window

end CxyCompiler.Lib
