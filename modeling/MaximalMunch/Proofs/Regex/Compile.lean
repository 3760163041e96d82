import MaximalMunch.Nfa.Fragment
import MaximalMunch.Proofs.Nfa.Labels
import MaximalMunch.Proofs.Nfa.Marks
import MaximalMunch.Proofs.Regex.WellFormed

/-!
# Compiling keeps the meaning

The fragment of a pattern spells the language of the pattern, if the graphs of the names it refers
to spell theirs (`spells_fragment`). No state of it accepts or has owners, whatever the referenced
graphs look like (`quiet_fragment`), and its transitions consume Unicode code points only, if those
of the referenced graphs do (`unicode_fragment`).
-/

namespace MaximalMunch

open Nfa (Graph)

namespace Nfa.Graph

/-! ## Sequences of fragments -/

/-- Further fragments go on where the first one ends. -/
theorem Spells.foldl_chain {parts : List Graph} {languages : List (Language UInt32)}
    (H : List.Forall₂ Spells parts languages) : ∀ {g : Graph} {L : Language UInt32}, g.Spells L →
      (parts.foldl Graph.chain g).Spells (L * languages.prod) := by
  induction H with
  | nil => intro g L hg; simpa using hg
  | cons hfirst _ ih =>
    intro g L hg
    rw [List.prod_cons, ← mul_assoc]
    exact ih (hg.chain hfirst)

end Nfa.Graph

namespace Regex

open Nfa.Graph (Spells Compositional compositional_quiet compositional_unicode)

variable {named : String → Graph} {env : String → Language UInt32}

mutual

/-- The fragment of a pattern spells its language. -/
theorem spells_fragment : ∀ (r : Regex) (next : Nat), r.WellFormed →
    (∀ name ∈ r.references, (named name).Spells (env name)) →
      (r.fragment named next).Spells (r.language env)
  | .literal c, next, _, _ => by
    rw [fragment, language, ← CharClass.language_single]
    exact .symbol next _
  | .oneOf members, next, _, _ => by
    rw [fragment, language]
    exact .symbol next members
  | .concat [], _, h, _ => by
    -- the reader makes no empty sequence
    rw [WellFormed] at h
    exact absurd rfl h.1
  | .concat (item :: rest), next, h, hnamed => by
    rw [WellFormed, AllWellFormed] at h
    rw [references, referencesOfAll, List.forall_mem_append] at hnamed
    rw [fragment, language, fragments, languages, List.foldl_cons, List.prod_cons]
    exact .foldl_chain (spells_fragments rest _ h.2.2 hnamed.2)
      (spells_fragment item next h.2.1 hnamed.1)
  | .alternate branches, next, h, hnamed => by
    rw [WellFormed] at h
    rw [references] at hnamed
    rw [fragment, language]
    exact .alternatives (spells_fragments branches (next + 1) h.2 hnamed) _ _
  | .repeated times inner, next, h, hnamed => by
    rw [WellFormed] at h
    rw [references] at hnamed
    rw [fragment, language]
    exact (spells_fragment inner next h hnamed).wrap _ times
  | .group inner, next, h, hnamed => by
    rw [WellFormed] at h
    rw [references] at hnamed
    rw [fragment, language]
    exact spells_fragment inner next h hnamed
  | .reference name, next, _, hnamed => by
    rw [references, List.forall_mem_singleton] at hnamed
    rw [fragment, language]
    exact (hnamed.copy next).clearAcceptance

/-- The fragments of some patterns spell their languages. -/
theorem spells_fragments : ∀ (rs : List Regex) (next : Nat), AllWellFormed rs →
    (∀ name ∈ referencesOfAll rs, (named name).Spells (env name)) →
      List.Forall₂ Spells (fragments named next rs) (languages env rs)
  | [], _, _, _ => by
    rw [fragments, languages]
    exact .nil
  | r :: rest, next, h, hnamed => by
    rw [AllWellFormed] at h
    rw [referencesOfAll, List.forall_mem_append] at hnamed
    rw [fragments, languages]
    exact .cons (spells_fragment r next h.1 hnamed.1) (spells_fragments rest _ h.2 hnamed.2)

end

/-- The ways in which fragments of patterns are built keep a property. -/
structure Constructive (P : Graph → Prop) : Prop where
  symbol : ∀ (next : Nat) {members : CharClass}, members.Unicode →
    (∃ cp, members.contains cp = true) → P (.symbol next members)
  chain : ∀ {g h : Graph}, P g → P h → P (g.chain h)
  alternatives : ∀ {parts : List Graph} (startId exitId : Nat), parts ≠ [] →
    (∀ part ∈ parts, P part) → P (.alternatives startId exitId parts)
  wrap : ∀ {g : Graph} (next : Nat) (times : Repetition), P g → P (g.wrap next times)

/-- What composing graphs keeps is kept if it holds of the fragments of classes. -/
theorem constructive_of_compositional {P : Graph → Prop} (C : Compositional P)
    (hsymbol : ∀ (next : Nat) {members : CharClass}, members.Unicode → P (.symbol next members)) :
    Constructive P where
  symbol next _ hunicode _ := hsymbol next hunicode
  chain hg hh := C.chain hg hh
  alternatives startId exitId _ hparts := C.alternatives hparts startId exitId
  wrap next times hg := C.wrap hg next times

/-- What is kept by chaining two graphs is kept by longer chains. -/
theorem Constructive.foldl_chain {P : Graph → Prop} (C : Constructive P) {parts : List Graph} :
    ∀ {g : Graph}, P g → (∀ part ∈ parts, P part) → P (parts.foldl Graph.chain g) := by
  induction parts with
  | nil => intro g hg _; exact hg
  | cons first rest ih =>
    intro g hg hparts
    obtain ⟨hfirst, hrest⟩ := List.forall_mem_cons.1 hparts
    exact ih (C.chain hg hfirst) hrest

/-- Patterns have fragments. -/
theorem fragments_ne_nil {rs : List Regex} {next : Nat} (h : rs ≠ []) :
    fragments named next rs ≠ [] := by
  cases rs with
  | nil => exact absurd rfl h
  | cons r rest =>
    rw [fragments]
    exact List.cons_ne_nil _ _

section Constructive

variable {P : Graph → Prop}

mutual

/-- What building fragments keeps holds of the fragment of a pattern if it holds of those of its
references. -/
theorem fragment_of_constructive (C : Constructive P) : ∀ (r : Regex) (next : Nat), r.WellFormed →
    (∀ name ∈ r.references, ∀ next, P ((named name).copy next).clearAcceptance) →
      P (r.fragment named next)
  | .literal c, next, _, _ => by
    rw [fragment]
    exact C.symbol next (.single c) ⟨c.val, CharClass.contains_single.2 rfl⟩
  | .oneOf members, next, h, _ => by
    rw [WellFormed] at h
    rw [fragment]
    exact C.symbol next h.1 h.2
  | .concat [], _, h, _ => by
    rw [WellFormed] at h
    exact absurd rfl h.1
  | .concat (item :: rest), next, h, hnamed => by
    rw [WellFormed, AllWellFormed] at h
    rw [references, referencesOfAll, List.forall_mem_append] at hnamed
    rw [fragment, fragments, List.foldl_cons]
    exact C.foldl_chain (fragment_of_constructive C item next h.2.1 hnamed.1)
      (fragments_of_constructive C rest _ h.2.2 hnamed.2)
  | .alternate branches, next, h, hnamed => by
    rw [WellFormed] at h
    rw [references] at hnamed
    rw [fragment]
    exact C.alternatives _ _ (fragments_ne_nil h.1)
      (fragments_of_constructive C branches (next + 1) h.2 hnamed)
  | .repeated times inner, next, h, hnamed => by
    rw [WellFormed] at h
    rw [references] at hnamed
    rw [fragment]
    exact C.wrap _ times (fragment_of_constructive C inner next h hnamed)
  | .group inner, next, h, hnamed => by
    rw [WellFormed] at h
    rw [references] at hnamed
    rw [fragment]
    exact fragment_of_constructive C inner next h hnamed
  | .reference name, next, _, hnamed => by
    rw [references, List.forall_mem_singleton] at hnamed
    rw [fragment]
    exact hnamed next

/-- The same for the fragments of a list of patterns. -/
theorem fragments_of_constructive (C : Constructive P) : ∀ (rs : List Regex) (next : Nat),
    AllWellFormed rs →
      (∀ name ∈ referencesOfAll rs, ∀ next, P ((named name).copy next).clearAcceptance) →
        ∀ part ∈ fragments named next rs, P part
  | [], _, _, _ => by
    rw [fragments]
    exact fun part h => absurd h List.not_mem_nil
  | r :: rest, next, h, hnamed => by
    rw [AllWellFormed] at h
    rw [referencesOfAll, List.forall_mem_append] at hnamed
    rw [fragments, List.forall_mem_cons]
    exact ⟨fragment_of_constructive C r next h.1 hnamed.1,
      fragments_of_constructive C rest _ h.2 hnamed.2⟩

end

end Constructive

/-- No state of a fragment accepts or has owners. -/
theorem quiet_fragment {r : Regex} (h : r.WellFormed) (next : Nat) :
    (r.fragment named next).Quiet :=
  fragment_of_constructive
    (constructive_of_compositional compositional_quiet fun next members _ => .symbol next members)
    r next h fun _ _ _ => .clearAcceptance _

/-- The transitions of a fragment consume Unicode code points. -/
theorem unicode_fragment {r : Regex} (h : r.WellFormed) (next : Nat)
    (hnamed : ∀ name ∈ r.references, (named name).Unicode) : (r.fragment named next).Unicode :=
  fragment_of_constructive
    (constructive_of_compositional compositional_unicode fun next _ hmembers =>
      .symbol hmembers next)
    r next h fun name hname next => ((hnamed name hname).copy next).clearAcceptance

/-- The tree of a pattern that compiles, and the fragment that it becomes. -/
theorem compile_eq_ok_iff {resolve : String → Option Graph} {pattern : String} {next : Nat}
    {g : Graph} :
    compile resolve pattern next = .ok g ↔ ∃ r, parse pattern = .ok r ∧
      (∀ name ∈ r.references, (resolve name).isSome = true) ∧
      g = r.fragment (fun name => (resolve name).getD .empty) next := by
  rw [compile]
  cases parse pattern with
  | error e => simp
  | ok r =>
    -- compiling fails at the first unknown name, so it succeeds iff there is none
    have hfind : r.references.find? (fun name => (resolve name).isNone) = none ↔
        ∀ name ∈ r.references, (resolve name).isSome = true := by
      rw [List.find?_eq_none]
      refine forall₂_congr fun name _ => ?_
      cases resolve name <;> simp
    dsimp only
    cases h : r.references.find? fun name => (resolve name).isNone with
    | some name =>
      constructor
      · intro hok; exact absurd hok (by simp)
      · rintro ⟨r', hr, hall, -⟩
        obtain rfl := Except.ok.inj hr
        rw [hfind.2 hall] at h
        exact absurd h (by simp)
    | none =>
      constructor
      · intro hok
        exact ⟨r, rfl, hfind.1 h, (Except.ok.inj hok).symm⟩
      · rintro ⟨r', hr, -, rfl⟩
        obtain rfl := Except.ok.inj hr
        rfl

end Regex

end MaximalMunch
