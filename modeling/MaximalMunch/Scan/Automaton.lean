import MaximalMunch.Text.Offsets

/-!
# Automata and the longest match

What scanning needs of an automaton: a start state, where a character leads, and which token a state
reports. `Automaton.longestPrefix` finds the longest prefix of a text that leads to a reporting
state. It reads on as long as the run goes on, and it never finds the empty prefix.
-/

namespace MaximalMunch

/-- An automaton that reads characters and reports tokens by name. -/
structure Automaton (σ : Type) where
  start : σ
  next : σ → Char → Option σ
  tokenOf : σ → Option String

namespace Automaton

variable {σ : Type}

/-- Goes on from state `s` after `n` characters; `best` is the longest match so far, as its number
of characters and its token. -/
def longestFrom (A : Automaton σ) (s : σ) (n : Nat) (best : Option (Nat × String)) :
    List Char → Option (Nat × String)
  | [] => best
  | c :: cs =>
    match A.next s c with
    | none => best
    | some s =>
      let best :=
        match A.tokenOf s with
        | some name => some (n + 1, name)
        | none => best
      longestFrom A s (n + 1) best cs

/-- The longest match at the start of a text: its number of characters and its token. -/
def longestPrefix (A : Automaton σ) (cs : List Char) : Option (Nat × String) :=
  A.longestFrom A.start 0 none cs

/-- The longest match at a byte offset: its number of bytes and its token. There is none at an
offset that is no boundary. -/
def longest? (A : Automaton σ) (text : String) (offset : Nat) : Option (Nat × String) := do
  let rest ← Text.dropBytes? offset text.toList
  let (n, name) ← A.longestPrefix rest
  return (Text.byteLength (rest.take n), name)

/-- A match found on the way counts the character that led to it. -/
theorem longestFrom_pos {A : Automaton σ} {cs : List Char} : ∀ {s : σ} {n : Nat}
    {best : Option (Nat × String)} {m : Nat} {name : String},
    (∀ m name, best = some (m, name) → 0 < m) → A.longestFrom s n best cs = some (m, name) →
    0 < m := by
  induction cs with
  | nil =>
    intro s n best m name hbest h
    exact hbest m name h
  | cons c cs ih =>
    intro s n best m name hbest h
    rw [longestFrom] at h
    split at h
    · exact hbest m name h
    · refine ih (fun m' name' h' => ?_) h
      split at h'
      · simp only [Option.some.injEq, Prod.mk.injEq] at h'
        omega
      · exact hbest m' name' h'

/-- A match is never empty. -/
theorem longestPrefix_pos {A : Automaton σ} {cs : List Char} {n : Nat} {name : String}
    (h : A.longestPrefix cs = some (n, name)) : 0 < n :=
  longestFrom_pos (by simp) h

end Automaton

end MaximalMunch
