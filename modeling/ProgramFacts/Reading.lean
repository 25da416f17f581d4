/-!
# Readings

Readers take what they read off the front of an input, be it characters or tokens.
A `Reading` is a value with the input that is left, which is always shorter than the
input was: that is why reading over and over ends.
-/

namespace ProgramFacts

/-- A value read off the front of an input, and the shorter input after it. -/
@[ext]
structure Reading {τ : Type} (α : Type) (input : List τ) where
  value : α
  rest : List τ
  shorter : rest.length < input.length

namespace Reading

variable {τ α β : Type} {input : List τ}

/-- The same reading with another value. -/
def map (f : α → β) (r : Reading α input) : Reading β input :=
  ⟨f r.value, r.rest, r.shorter⟩

@[simp] theorem map_value (f : α → β) (r : Reading α input) : (r.map f).value = f r.value := rfl

@[simp] theorem map_rest (f : α → β) (r : Reading α input) : (r.map f).rest = r.rest := rfl

/-- A value read off one item. -/
def one {x : τ} {rest : List τ} (value : α) : Reading α (x :: rest) :=
  ⟨value, rest, Nat.lt_succ_self _⟩

/-- A value read off two items. -/
def two {x y : τ} {rest : List τ} (value : α) : Reading α (x :: y :: rest) :=
  ⟨value, rest, Nat.lt_succ_of_lt (Nat.lt_succ_self _)⟩

/-- The first item of an input, if it is the one that is asked for. -/
def item? [DecidableEq τ] (wanted : τ) : (input : List τ) → Option (Reading Unit input)
  | [] => none
  | x :: _ => if x = wanted then some (.one ()) else none

theorem eq_of_item? [DecidableEq τ] {wanted : τ} {r : Reading Unit input}
    (h : item? wanted input = some r) : input = wanted :: r.rest := by
  cases input with
  | nil => simp [item?] at h
  | cons x rest =>
    simp only [item?] at h
    split at h
    · next hx => cases h; simp [hx, one]
    · cases h

end Reading

end ProgramFacts
