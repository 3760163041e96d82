import MaximalMunch.Proofs.Definition.Calls
import MaximalMunch.Proofs.Regex.Building

/-!
# Declarations that fail

`Builder.declare` gives a builder or an error. `Builder.declareM` changes a builder in place
instead: it draws ids from the builder's own count and changes one part after the other, and what it
has done when it fails stays done. Still a call that fails has done nothing, and one that succeeds
leaves the builder that `Builder.perform` gives (`Builder.run_performM`). So failing calls may as
well not be made (`Builder.runAll_succeeding`).
-/

namespace MaximalMunch

open Nfa (Graph)

namespace Builder

/-- A computation that changes a builder in place. What it has changed when it fails is changed. -/
abbrev InPlace := EStateM Definition.Error Builder

/-- Draws ids from the count of the builder. -/
def drawing {α : Type} (line : Nat) (x : Regex.Building α) : InPlace α := fun b =>
  match x.run b.issued with
  | .ok a issued => .ok a { b with issued }
  | .error e issued => .error ⟨line, .ofCompileError e⟩ { b with issued }

/-- Declares a pattern for a name, in place. -/
def declareM (name pattern : String) (internal : Bool) (line : Nat) : InPlace Unit := do
  let b ← get
  let known := b.byName.lookup name
  let index := known.getD b.tokens.size
  let fragment ← drawing line (Regex.compileM b.resolve pattern)
  let graph := fragment.acceptAtExit [index]
  match known with
  | some i =>
    modify (·.log (.extended line name pattern))
    let next ← drawing line (Regex.draw 2)
    modify fun b => { b with tokens := b.tokens.modify i (·.alternate graph next) }
  | none =>
    modify (·.log (.declared line name internal pattern))
    modify fun b => { b with byName := b.byName.insert name index }
    modify fun b => { b with tokens := b.tokens.push ⟨name, index, internal, graph⟩ }

/-- Makes a call, in place. -/
def performM : Call → InPlace Unit
  | .line text number =>
    match Declaration.ofLine? text number with
    | .error e => throw e
    | .ok none => return ()
    | .ok (some d) => declareM d.name d.pattern d.internal number
  | .declare name pattern internal number => declareM name pattern internal number

/-- Makes some calls one after the other and goes on behind those that fail. -/
def runAll (b : Builder) : List Call → Builder
  | [] => b
  | c :: rest =>
    match (performM c).run b with
    | .ok _ b' => b'.runAll rest
    | .error _ b' => b'.runAll rest

/-- The calls that do not fail. -/
def succeeding (b : Builder) : List Call → List Call
  | [] => []
  | c :: rest =>
    match (performM c).run b with
    | .ok _ b' => c :: b'.succeeding rest
    | .error _ b' => b'.succeeding rest

variable {b : Builder}

/-! ## One call -/

/-- A builder changed in place, or left as it is after an error. -/
def settle (b : Builder) :
    Except Definition.Error Builder → EStateM.Result Definition.Error Builder Unit
  | .ok b' => .ok () b'
  | .error e => .error e b

/-- Compiling in place draws the ids of the fragment, or none. -/
theorem run_drawing_compileM (b : Builder) (pattern : String) (line : Nat) :
    (drawing line (Regex.compileM b.resolve pattern)).run b =
      match Regex.compile b.resolve pattern b.issued with
      | .ok g => .ok g { b with issued := b.issued + g.size }
      | .error e => .error ⟨line, .ofCompileError e⟩ b := by
  show drawing line _ b = _
  rw [drawing, Regex.run_compileM]
  cases Regex.compile b.resolve pattern b.issued <;> rfl

/-- A declaration leaves the builder that it gives, or the builder as it was. -/
theorem run_declareM (b : Builder) (name pattern : String) (internal : Bool) (line : Nat) :
    (declareM name pattern internal line).run b =
      b.settle (b.declare name pattern internal line) := by
  unfold declareM
  rw [EStateM.run_bind, EStateM.run_get]
  dsimp only
  rw [EStateM.run_bind, run_drawing_compileM, declare, TokenAutomaton.ofPattern]
  cases Regex.compile b.resolve pattern b.issued with
  | error e => rfl
  | ok g =>
    -- marking the exit makes no state
    have hsize (owners : List Nat) : g.size = (g.acceptAtExit owners).size :=
      (Graph.size_acceptAtExit owners).symm
    cases b.byName.lookup name with
    | none =>
      dsimp only [Option.getD_none]
      rw [hsize [b.tokens.size]]
      rfl
    | some i =>
      dsimp only [Option.getD_some]
      rw [hsize [i]]
      rfl

/-- A call leaves the builder that it gives, or the builder as it was. -/
theorem run_performM (b : Builder) (c : Call) : (performM c).run b = b.settle (b.perform c) := by
  cases c with
  | declare name pattern internal number => exact run_declareM b name pattern internal number
  | line text number =>
    rw [perform, line, performM]
    cases Declaration.ofLine? text number with
    | error e => rfl
    | ok d? =>
      cases d? with
      | none => rfl
      | some d => exact run_declareM b _ _ _ number

/-! ## Calls one after the other -/

/-- Calls in place lead where calls lead. -/
theorem runAll_eq_foldl (calls : List Call) : ∀ b : Builder,
    b.runAll calls = calls.foldl attempt b := by
  induction calls with
  | nil => intro b; rfl
  | cons c rest ih =>
    intro b
    rw [runAll, run_performM, List.foldl_cons, attempt]
    cases b.perform c with
    | ok b' => exact ih b'
    | error e => exact ih b

/-- Without the failing calls the builder is the same, and no call fails. -/
theorem runAll_succeeding (calls : List Call) : ∀ b : Builder,
    b.runAll (b.succeeding calls) = b.runAll calls ∧
      b.succeeding (b.succeeding calls) = b.succeeding calls := by
  induction calls with
  | nil => intro b; exact ⟨rfl, rfl⟩
  | cons c rest ih =>
    intro b
    have hrun := run_performM b c
    cases hperform : b.perform c with
    | error e =>
      rw [hperform] at hrun
      rw [succeeding, runAll, hrun]
      exact ih b
    | ok b' =>
      rw [hperform] at hrun
      rw [succeeding, runAll, hrun]
      simp only [settle, runAll, succeeding, hrun]
      exact ⟨(ih b').1, congrArg (c :: ·) (ih b').2⟩

end Builder

/-- A call in place leaves the builder that it gives, and after an error the builder that there was.
Compiling in place gives what compiling gives. The error is that of the reader if the pattern cannot
be read, and else it names the first name in the text that is not known; in both cases no id is
spent. If there is no such name, building does not fail. So the calls that fail can be left out of
any calls, and the definition is the same. -/
theorem failing_calls_leave_no_trace :
    (∀ (b : Builder) (c : Builder.Call),
      (Builder.performM c).run b =
        match b.perform c with
        | .ok b' => .ok () b'
        | .error e => .error e b) ∧
    (∀ (resolve : String → Option Graph) (pattern : String) (next : Nat),
      let compiled := (Regex.compileM resolve pattern).run next
      let unknown? :=
        (Regex.mentions .plain pattern.toList).find? fun name => (resolve name).isNone
      (compiled =
        match Regex.compile resolve pattern next with
        | .ok g => .ok g (next + g.size)
        | .error e => .error e next) ∧
      (∀ e, (∃ spent, compiled = .error (.malformed e) spent) ↔ Regex.parse pattern = .error e) ∧
      (∀ name, (∃ spent, compiled = .error (.unresolvedReference name) spent) ↔
        (∃ r, Regex.parse pattern = .ok r) ∧ unknown? = some name) ∧
      (∀ e spent, compiled = .error e spent → spent = next) ∧
      ∀ r, Regex.parse pattern = .ok r → unknown? = none →
        ∃ g, (r.build resolve).run next = .ok g (next + g.size)) ∧
    ∀ calls : List Builder.Call,
      let kept := Builder.empty.succeeding calls
      Builder.empty.runAll calls = Builder.after calls ∧ Builder.empty.succeeding kept = kept ∧
        (Builder.empty.runAll kept).finish = (Builder.empty.runAll calls).finish := by
  refine ⟨fun b c => ?_, fun resolve pattern next => ⟨Regex.run_compileM, fun e => ?_,
    fun name => ?_, fun e spent h => ?_, fun r hparse h => ?_⟩, fun calls => ?_⟩
  · rw [Builder.run_performM]
    cases b.perform c <;> rfl
  · simp only [Regex.run_compileM_eq_error_iff, exists_eq_right, Regex.compile_eq_malformed_iff]
  · rw [← @Regex.compile_eq_unresolvedReference_iff resolve pattern next]
    simp only [Regex.run_compileM_eq_error_iff, exists_eq_right]
  · exact (Regex.run_compileM_eq_error_iff.1 h).2
  · -- the scan of the text and the tree name the same references, so none is unknown
    rw [← Regex.references_eq_mentions hparse] at h
    exact ⟨_, Regex.run_build_of_find? h next⟩
  · obtain ⟨hrun, hkept⟩ := Builder.runAll_succeeding calls Builder.empty
    exact ⟨Builder.runAll_eq_foldl calls _, hkept, congrArg Builder.finish hrun⟩

/-- Behind a token for `ab`, a pattern that goes on to an unknown name is refused. -/
theorem failing_calls_leave_no_trace_unknown :
    let b := Builder.after [.declare "x" "ab" true 1]
    (Builder.performM (.declare "y" "{x}{z}" false 2)).run b =
      .error ⟨2, .unresolvedReference "z"⟩ b ∧
    (∃ spent, (Regex.compileM b.resolve "{x}{z}").run 4 =
      .error (.unresolvedReference "z") spent ∧ spent = 4) ∧
    ∃ g, ((Regex.reference "x").build b.resolve).run 4 = .ok g (4 + g.size) := by
  obtain ⟨hcall, hcompile, -⟩ := failing_calls_leave_no_trace
  have hfails : (Builder.after [.declare "x" "ab" true 1]).perform
      (.declare "y" "{x}{z}" false 2) = .error ⟨2, .unresolvedReference "z"⟩ := by rfl
  have hunknown : (Regex.mentions .plain "{x}{z}".toList).find?
      (fun n => ((Builder.after [.declare "x" "ab" true 1]).resolve n).isNone) = some "z" := by rfl
  have hknown : (Regex.mentions .plain "{x}".toList).find?
      (fun n => ((Builder.after [.declare "x" "ab" true 1]).resolve n).isNone) = none := by rfl
  refine ⟨by rw [hcall, hfails], ?_, (hcompile _ "{x}" 4).2.2.2.2 _ rfl hknown⟩
  obtain ⟨-, -, hunresolved, hspent, -⟩ := hcompile _ "{x}{z}" 4
  obtain ⟨spent, h⟩ := (hunresolved "z").2 ⟨⟨_, rfl⟩, hunknown⟩
  exact ⟨spent, h, hspent _ _ h⟩

end MaximalMunch
