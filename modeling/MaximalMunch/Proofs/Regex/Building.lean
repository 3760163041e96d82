import MaximalMunch.Proofs.Nfa.Alternatives
import MaximalMunch.Proofs.Regex.Compile
import MaximalMunch.Proofs.Regex.References

/-!
# Drawing ids while a fragment is built

`Regex.fragment` is told from which number on its ids go. `Regex.build` draws them from a counter as
it makes states, and it looks names up where it comes to them, so it may fail when some ids are
already spent. If all names are known it makes the same fragment and draws as many ids as that has
states (`run_build`).

`Regex.compileM` looks at all names before it builds, and it spends no id unless it gives a fragment
(`run_compileM`).
-/

namespace MaximalMunch.Regex

open Nfa (Graph)
open Nfa.Graph (size_alternatives size_clearAcceptance size_copy size_empty size_foldl_chain
  size_wrap totalSize totalSize_cons)

/-- A computation that draws ids from a counter. If it fails, the ids drawn before are spent. -/
abbrev Building := EStateM CompileError Nat

/-- The first of some fresh ids. -/
def draw (count : Nat) : Building Nat :=
  modifyGet fun next => (next, next + count)

mutual

/-- Builds the fragment of a pattern part by part. -/
def build (resolve : String → Option Graph) : Regex → Building Graph
  | .literal c => do return Graph.symbol (← draw 2) (.single c)
  | .oneOf members => do return Graph.symbol (← draw 2) members
  | .concat items => do return (← buildAll resolve items).foldl Graph.chain .empty
  | .alternate branches => do
    let startId ← draw 1
    let parts ← buildAll resolve branches
    return Graph.alternatives startId (← draw 1) parts
  | .repeated times inner => do
    let g ← build resolve inner
    return Graph.wrap (← draw 2) g times
  | .group inner => build resolve inner
  | .reference name =>
    match resolve name with
    | some g => do return (g.copy (← draw g.size)).clearAcceptance
    | none => throw (.unresolvedReference name)

/-- Builds the fragments of some patterns, one after the other. -/
def buildAll (resolve : String → Option Graph) : List Regex → Building (List Graph)
  | [] => return []
  | r :: rest => do
    let g ← build resolve r
    return g :: (← buildAll resolve rest)

end

/-- The fragment of a pattern. Nothing is built before all names are known. -/
def compileM (resolve : String → Option Graph) (pattern : String) : Building Graph :=
  match parse pattern with
  | .error e => throw (.malformed e)
  | .ok r =>
    match r.references.find? fun name => (resolve name).isNone with
    | some name => throw (.unresolvedReference name)
    | none => r.build resolve

/-! ## Building -/

section Building

variable {resolve : String → Option Graph} {named : String → Graph}

/-- After a first part that succeeds the second goes on with the ids that are left. -/
theorem run_bind_of_ok {α β : Type} {x : Building α} {f : α → Building β} {a : α} {next next' : Nat}
    (h : x.run next = .ok a next') : (x >>= f).run next = (f a).run next' := by
  rw [EStateM.run_bind, h]

mutual

/-- If all names are known, the fragment is built with the ids from the counter on. -/
theorem run_build : ∀ (r : Regex) (next : Nat),
    (∀ name ∈ r.references, resolve name = some (named name)) →
      (r.build resolve).run next =
        .ok (r.fragment named next) (next + (r.fragment named next).size)
  | .literal c, next, _ => by
    rw [build, fragment]
    rfl
  | .oneOf members, next, _ => by
    rw [build, fragment]
    rfl
  | .concat items, next, h => by
    rw [references] at h
    rw [build, fragment, run_bind_of_ok (run_buildAll items next h), size_foldl_chain, size_empty,
      Nat.zero_add]
    rfl
  | .alternate branches, next, h => by
    rw [references] at h
    have hstart : (draw 1).run next = .ok next (next + 1) := rfl
    have hsize : next + (totalSize (fragments named (next + 1) branches) + 2) =
        next + 1 + totalSize (fragments named (next + 1) branches) + 1 := by omega
    rw [build, fragment, run_bind_of_ok hstart, run_bind_of_ok (run_buildAll branches _ h),
      size_alternatives, hsize]
    rfl
  | .repeated times inner, next, h => by
    rw [references] at h
    rw [build, fragment, run_bind_of_ok (run_build inner next h), size_wrap, ← Nat.add_assoc]
    rfl
  | .group inner, next, h => by
    rw [references] at h
    rw [build, fragment]
    exact run_build inner next h
  | .reference name, next, h => by
    rw [references, List.forall_mem_singleton] at h
    rw [build, fragment, h, size_clearAcceptance, size_copy]
    rfl

/-- So are the fragments of some patterns. -/
theorem run_buildAll : ∀ (rs : List Regex) (next : Nat),
    (∀ name ∈ referencesOfAll rs, resolve name = some (named name)) →
      (buildAll resolve rs).run next =
        .ok (fragments named next rs) (next + totalSize (fragments named next rs))
  | [], next, _ => by
    rw [buildAll, fragments]
    rfl
  | r :: rest, next, h => by
    rw [referencesOfAll, List.forall_mem_append] at h
    rw [buildAll, fragments, run_bind_of_ok (run_build r next h.1),
      run_bind_of_ok (run_buildAll rest _ h.2), totalSize_cons, ← Nat.add_assoc]
    rfl

end

/-- Without looking at the names first, ids are spent on what comes before an unknown one. -/
example : (build (fun _ => none) (.concat [.literal 'a', .reference "b"])).run 0 =
    .error (.unresolvedReference "b") 2 := rfl

end Building

/-! ## Compiling -/

variable {resolve : String → Option Graph} {pattern : String} {next : Nat}

/-- Building does not fail once no name has been found to be unknown. -/
theorem run_build_of_find? {r : Regex}
    (h : (r.references.find? fun name => (resolve name).isNone) = none) (next : Nat) :
    let g := r.fragment (fun name => (resolve name).getD .empty) next
    (r.build resolve).run next = .ok g (next + g.size) := by
  refine run_build r next fun name hname => ?_
  have hknown := List.find?_eq_none.1 h name hname
  cases hresolve : resolve name with
  | some g => rfl
  | none => exact absurd (by rw [hresolve]; rfl) hknown

/-- Ids are spent on the states of a fragment that is given, and on nothing else. -/
theorem run_compileM : (compileM resolve pattern).run next =
    match compile resolve pattern next with
    | .ok g => .ok g (next + g.size)
    | .error e => .error e next := by
  rw [compileM, compile]
  cases parse pattern with
  | error e => rfl
  | ok r =>
    dsimp only
    cases hfind : r.references.find? fun name => (resolve name).isNone with
    | some name => rfl
    | none => exact run_build_of_find? hfind next

/-- Without a fragment no id is spent. -/
theorem run_compileM_eq_error_iff {e : CompileError} {spent : Nat} :
    (compileM resolve pattern).run next = .error e spent ↔
      compile resolve pattern next = .error e ∧ spent = next := by
  rw [run_compileM]
  cases compile resolve pattern next with
  | ok g => simp
  | error e' => simp [eq_comm]

/-- A pattern is malformed for the compiler if it is for the reader. -/
theorem compile_eq_malformed_iff {e : SyntaxError} :
    compile resolve pattern next = .error (.malformed e) ↔ parse pattern = .error e := by
  rw [compile]
  cases parse pattern with
  | error e' => simp
  | ok r =>
    dsimp only
    cases r.references.find? fun name => (resolve name).isNone <;> simp

/-- The name that is reported as unknown is the first such name in the text. -/
theorem compile_eq_unresolvedReference_iff {name : String} :
    compile resolve pattern next = .error (.unresolvedReference name) ↔
      (∃ r, parse pattern = .ok r) ∧
        (mentions .plain pattern.toList).find? (fun n => (resolve n).isNone) = some name := by
  rw [compile]
  cases hparse : parse pattern with
  | error e => simp
  | ok r =>
    rw [← references_eq_mentions hparse]
    dsimp only
    cases r.references.find? fun n => (resolve n).isNone <;> simp

end MaximalMunch.Regex
