import MaximalMunch.Proofs.Nfa.Paths
import MaximalMunch.Proofs.Regex.Language

/-!
# Languages of fragments

`Graph.Spells g L` says that `g` is a fragment for the language `L`: it has states, its transitions
stay inside, and the code points on a path from its entry to its exit are the words of `L`. Each way
of building a fragment is matched by an operation on languages:

* one member of a class, `Spells.symbol`;
* one fragment after another, `Spells.chain`;
* a fragment again and again, `Spells.wrap`.

In every case the parts lie in the new graph one after the other, and a path is cut where it leaves
a part.
-/

namespace MaximalMunch

open scoped Computability
open Nfa (Graph)

/-- What may follow the first word of `L` in a repetition. -/
def Repetition.further (times : Repetition) (L : Language UInt32) : Language UInt32 :=
  if times = .zeroOrOne then 1 else L∗

/-- A repetition is empty, if it may be, or it is a word and what may follow. -/
theorem Repetition.mem_language {times : Repetition} {L : Language UInt32} {w : List UInt32} :
    w ∈ times.language L ↔ (times ≠ .oneOrMore ∧ w = []) ∨ w ∈ L * times.further L := by
  cases times with
  | zeroOrMore =>
    rw [language, ← Language.one_add_self_mul_kstar_eq_kstar, Language.mem_add, Language.mem_one]
    simp [further]
  | oneOrMore => simp [language, further]
  | zeroOrOne =>
    rw [language, Language.mem_add, Language.mem_one]
    simp [further]

namespace Nfa.Graph

variable {g h : Graph} {L M : Language UInt32} {i j k : Nat} {l : Label} {u v w : List UInt32}

/-- A fragment for a language. -/
structure Spells (g : Graph) (L : Language UInt32) : Prop where
  size_pos : 0 < g.size
  inRange : g.InRange
  path_iff : ∀ w, g.Path 0 w g.exit ↔ w ∈ L

/-- The exit of a graph with states is one of them. -/
theorem exit_lt_size (hg : 0 < g.size) : g.exit < g.size := Nat.sub_lt hg Nat.one_pos

/-- Ids and marks do not matter. -/
theorem Spells.congr (H : g.Spells L) (hsize : h.size = g.size)
    (htrans : ∀ i, h.transitions i = g.transitions i) : h.Spells L where
  size_pos := hsize ▸ H.size_pos
  inRange i l j e := by
    rw [Edge, htrans] at e
    exact hsize ▸ H.inRange e
  path_iff w := by
    rw [exit_congr hsize, path_congr htrans]
    exact H.path_iff w

/-- A copy spells the same language. -/
theorem Spells.copy (H : g.Spells L) (next : Nat) : (g.copy next).Spells L :=
  H.congr (size_copy next) fun _ => transitions_copy next

/-- What a graph spells does not depend on acceptance. -/
theorem Spells.clearAcceptance (H : g.Spells L) : g.clearAcceptance.Spells L :=
  H.congr size_clearAcceptance fun _ => transitions_clearAcceptance

/-- A graph spells the same language after its exit is demoted. -/
theorem Spells.demoteExit (H : g.Spells L) : g.demoteExit.Spells L :=
  H.congr size_demoteExit fun _ => transitions_demoteExit

/-- A graph spells the same language after its exit accepts. -/
theorem Spells.acceptAtExit (H : g.Spells L) (owners : List Nat) :
    (g.acceptAtExit owners).Spells L :=
  H.congr (size_acceptAtExit owners) fun _ => transitions_acceptAtExit owners

/-! ## One member of a class -/

/-- The graph of a class has one edge, from its entry to its exit. -/
theorem edge_symbol {next : Nat} {members : CharClass} :
    (symbol next members).Edge i l j ↔ i = 0 ∧ l = .oneOf members ∧ j = 1 := by
  rw [symbol, edge_connect (by simp), edge_add, edge_add]
  simp

@[simp] theorem size_symbol (next : Nat) (members : CharClass) :
    (symbol next members).size = 2 := by
  simp [symbol]

/-- The exit of the graph of a class is its second state. -/
theorem exit_symbol (next : Nat) (members : CharClass) : (symbol next members).exit = 1 := by
  rw [exit, size_symbol]

/-- The graph of a class has its only edge in range. -/
theorem InRange.symbol (next : Nat) (members : CharClass) : (symbol next members).InRange := by
  intro i l j e
  obtain ⟨-, -, rfl⟩ := edge_symbol.1 e
  rw [size_symbol]
  exact Nat.one_lt_two

/-- The graph of a class spells the words of one code point of the class. -/
theorem Spells.symbol (next : Nat) (members : CharClass) :
    (symbol next members).Spells members.language where
  size_pos := by simp
  inRange := .symbol next members
  path_iff w := by
    have hexit := exit_symbol next members
    have hstop : ∀ l k, ¬ (Graph.symbol next members).Edge 1 l k := fun l k e =>
      absurd (edge_symbol.1 e).1 (by decide)
    rw [hexit]
    constructor
    · intro p
      cases p with
      | epsilon e => exact absurd (edge_symbol.1 e).2.1 (by simp)
      | consume e hcp p =>
        obtain ⟨-, hl, rfl⟩ := edge_symbol.1 e
        obtain ⟨rfl, -⟩ := p.eq_nil hstop
        obtain rfl := Label.oneOf.inj hl
        exact ⟨_, hcp, rfl⟩
    · rintro ⟨cp, hcp, rfl⟩
      exact .consume (edge_symbol.2 ⟨rfl, rfl, rfl⟩) hcp (.nil 1)

/-! ## One fragment after another -/

/-- Chaining appends a graph and connects the old exit with its entry. -/
theorem chain_eq (hg : 0 < g.size) (h : Graph) :
    g.chain h = (g.append h).connectEpsilon g.exit g.size := by
  rw [chain, if_neg fun he => by
    rw [isEmpty_iff] at he
    omega]

@[simp] theorem size_chain (g h : Graph) : (g.chain h).size = g.size + h.size := by
  unfold chain
  split
  · rename_i he
    rw [isEmpty_iff.1 he, Nat.zero_add]
  · rw [size_connectEpsilon, size_append]

/-- The edges of a chain are those of its parts and the one between them. -/
theorem edge_chain (hg : 0 < g.size) :
    (g.chain h).Edge i l j ↔
      (g.Edge i l j ∨ ∃ i' j', i = g.size + i' ∧ j = g.size + j' ∧ h.Edge i' l j') ∨
        (i = g.exit ∧ l = .epsilon ∧ j = g.size) := by
  have := exit_lt_size hg
  rw [chain_eq hg, edge_connectEpsilon (by rw [size_append]; omega), edge_append]

/-- The first fragment has one way out, into the second. -/
theorem houses_chain_left (hg : 0 < g.size) : (g.chain h).Houses g 0 (· = g.size) := by
  intro i hi l j
  rw [edge_chain hg, Nat.zero_add]
  constructor
  · rintro ((e | ⟨i', j', rfl, -, -⟩) | hout)
    · exact Or.inl ⟨j, (Nat.zero_add j).symm, e⟩
    · omega
    · exact Or.inr hout
  · rintro (⟨j', rfl, e⟩ | hout)
    · rw [Nat.zero_add]
      exact Or.inl (Or.inl e)
    · exact Or.inr hout

/-- The second fragment has no way out. -/
theorem houses_chain_right (hg : 0 < g.size) : (g.chain h).Houses h g.size fun _ => False := by
  intro i hi l j
  have := exit_lt_size hg
  rw [edge_chain hg]
  constructor
  · rintro ((e | ⟨i', j', hi', rfl, e⟩) | ⟨hi', -⟩)
    · exact absurd e.lt_size (by omega)
    · obtain rfl : i = i' := by omega
      exact Or.inl ⟨j', rfl, e⟩
    · omega
  · rintro (⟨j', rfl, e⟩ | ⟨-, -, hout⟩)
    · exact Or.inl (Or.inr ⟨i, j', rfl, rfl, e⟩)
    · exact hout.elim

/-- The exit of a chain is that of its second part. -/
theorem exit_chain (hh : 0 < h.size) : (g.chain h).exit = g.size + h.exit := by
  rw [exit, size_chain, exit, Nat.add_sub_assoc hh]

/-- A chain of graphs with edges in range has its edges in range. -/
theorem InRange.chain (hg : 0 < g.size) (hh : 0 < h.size) (H : g.InRange) (K : h.InRange) :
    (g.chain h).InRange := by
  intro i l j e
  rw [size_chain]
  rcases (edge_chain hg).1 e with (e' | ⟨i', j', rfl, rfl, e'⟩) | ⟨-, -, rfl⟩
  · exact Nat.lt_add_right _ (H e')
  · exact Nat.add_lt_add_left (K e') _
  · omega

/-- A chain spells the concatenation of what its parts spell. -/
theorem Spells.chain (H : g.Spells L) (K : h.Spells M) : (g.chain h).Spells (L * M) where
  size_pos := by
    rw [size_chain]
    exact Nat.add_pos_left H.size_pos _
  inRange := H.inRange.chain H.size_pos K.size_pos K.inRange
  path_iff w := by
    have hexit := exit_chain (g := g) K.size_pos
    have hleft := houses_chain_left (h := h) H.size_pos
    have hright := houses_chain_right (h := h) H.size_pos
    rw [hexit, Language.mem_mul]
    constructor
    · -- a path to the exit leaves the first fragment, and then it cannot leave the second
      intro p
      rcases hleft.path_cases H.inRange (i := 0) (by simpa using p) H.size_pos with
        ⟨j, hj, p'⟩ | ⟨u, v, t, rfl, p', rfl, q⟩
      · have := p'.lt_size_of_inRange H.inRange H.size_pos
        omega
      · obtain ⟨j, hj, q'⟩ := (hright.path_iff K.inRange K.size_pos).1 q
        obtain rfl : h.exit = j := by omega
        exact ⟨u, (H.path_iff u).1 p', v, (K.path_iff v).1 q', rfl⟩
    · rintro ⟨u, hu, v, hv, rfl⟩
      have p := hleft.path H.inRange ((H.path_iff u).2 hu) H.size_pos
      have q := hright.path K.inRange ((K.path_iff v).2 hv) K.size_pos
      rw [Nat.zero_add, Nat.zero_add] at p
      exact p.append (.epsilon ((edge_chain H.size_pos).2 (Or.inr ⟨rfl, rfl, rfl⟩)) q)

/-! ## A fragment again and again -/

/-- The graph of a repetition before its new edges: a start, the fragment and an exit. -/
def surround (next : Nat) (inner : Graph) : Graph :=
  ((empty.add { id := next }).append inner).add { id := next + 1 }

@[simp] theorem size_surround (next : Nat) (inner : Graph) :
    (surround next inner).size = inner.size + 2 := by
  simp only [surround, size_add, size_append, size_empty]
  omega

/-- Two further states around a graph, which nothing connects with it yet, leave its edges as they
are. -/
theorem edge_surround {next : Nat} {inner : Graph} :
    (surround next inner).Edge i l j ↔ ∃ i' j', i = 1 + i' ∧ j = 1 + j' ∧ inner.Edge i' l j' := by
  rw [surround, edge_add, edge_append, edge_add]
  simp

/-- A repeated graph is surrounded by two states, entered from the one and left for the other. Of
the edges that skip it and go back, those are there that the repetition allows. -/
theorem wrap_eq (next : Nat) (inner : Graph) (times : Repetition) :
    wrap next inner times =
      let through := ((surround next inner).connectEpsilon 0 1).connectEpsilon (1 + inner.exit)
        (inner.size + 1)
      let looped := if times = .zeroOrOne then through else
        through.connectEpsilon (1 + inner.exit) 1
      if times = .oneOrMore then looped else looped.connectEpsilon 0 (inner.size + 1) := by
  have hexit : (surround next inner).exit = inner.size + 1 := by
    rw [exit, size_surround]
    omega
  rw [← hexit]
  rfl

/-- An edge that is there or not makes no state. -/
theorem size_ite_connectEpsilon (c : Prop) [Decidable c] (source target : Nat) :
    (if c then g else g.connectEpsilon source target).size = g.size := by
  split
  · rfl
  · exact size_connectEpsilon _ _

/-- The edges with one that is there unless a condition holds. -/
theorem edge_ite_connectEpsilon {c : Prop} [Decidable c] {source target : Nat}
    (hs : source < g.size) :
    (if c then g else g.connectEpsilon source target).Edge i l j ↔
      g.Edge i l j ∨ (¬ c ∧ i = source ∧ l = .epsilon ∧ j = target) := by
  split
  · rename_i hc
    simp [hc]
  · rename_i hc
    rw [edge_connectEpsilon hs]
    simp [hc]

@[simp] theorem size_wrap (next : Nat) (inner : Graph) (times : Repetition) :
    (wrap next inner times).size = inner.size + 2 := by
  rw [wrap_eq]
  simp only [size_ite_connectEpsilon, size_connectEpsilon, size_surround]

/-- The new edges lead from the new start into the fragment and past it, and from the exit of the
fragment to the new exit and back. -/
theorem edge_wrap {next : Nat} {inner : Graph} {times : Repetition} (hinner : 0 < inner.size) :
    (wrap next inner times).Edge i l j ↔
      (∃ i' j', i = 1 + i' ∧ j = 1 + j' ∧ inner.Edge i' l j') ∨
      (i = 0 ∧ l = .epsilon ∧ (j = 1 ∨ (times ≠ .oneOrMore ∧ j = inner.size + 1))) ∨
      (i = 1 + inner.exit ∧ l = .epsilon ∧
        (j = inner.size + 1 ∨ (times ≠ .zeroOrOne ∧ j = 1))) := by
  have hexit := exit_lt_size hinner
  simp only [wrap_eq]
  rw [edge_ite_connectEpsilon, edge_ite_connectEpsilon, edge_connectEpsilon, edge_connectEpsilon,
    edge_surround]
  · constructor
    · rintro ((((h | ⟨hi, hl, hj⟩) | ⟨hi, hl, hj⟩) | ⟨hloop, hi, hl, hj⟩) | ⟨hpass, hi, hl, hj⟩)
      · exact Or.inl h
      · exact Or.inr (Or.inl ⟨hi, hl, Or.inl hj⟩)
      · exact Or.inr (Or.inr ⟨hi, hl, Or.inl hj⟩)
      · exact Or.inr (Or.inr ⟨hi, hl, Or.inr ⟨hloop, hj⟩⟩)
      · exact Or.inr (Or.inl ⟨hi, hl, Or.inr ⟨hpass, hj⟩⟩)
    · rintro (h | ⟨hi, hl, hj | ⟨hpass, hj⟩⟩ | ⟨hi, hl, hj | ⟨hloop, hj⟩⟩)
      · exact Or.inl (Or.inl (Or.inl (Or.inl h)))
      · exact Or.inl (Or.inl (Or.inl (Or.inr ⟨hi, hl, hj⟩)))
      · exact Or.inr ⟨hpass, hi, hl, hj⟩
      · exact Or.inl (Or.inl (Or.inr ⟨hi, hl, hj⟩))
      · exact Or.inl (Or.inr ⟨hloop, hi, hl, hj⟩)
  all_goals
    simp only [size_ite_connectEpsilon, size_connectEpsilon, size_surround]
    omega

section Wrap

variable {next : Nat} {inner : Graph} {times : Repetition}

/-- The exit of a repeated graph is the last of its states. -/
theorem exit_wrap : (wrap next inner times).exit = inner.size + 1 := by
  rw [exit, size_wrap]
  omega

/-- The repeated fragment has ways out to the new exit and, if it may run again, to itself. -/
theorem houses_wrap (hinner : 0 < inner.size) : (wrap next inner times).Houses inner 1 fun j =>
    j = inner.size + 1 ∨ (times ≠ .zeroOrOne ∧ j = 1) := by
  intro i hi l j
  rw [edge_wrap hinner]
  constructor
  · rintro (⟨i', j', hi', rfl, e⟩ | ⟨hi', -⟩ | ⟨hi', rest⟩)
    · obtain rfl : i = i' := by omega
      exact Or.inl ⟨j', rfl, e⟩
    · omega
    · exact Or.inr ⟨by omega, rest⟩
  · rintro (⟨j', rfl, e⟩ | ⟨rfl, rest⟩)
    · exact Or.inl ⟨i, j', rfl, rfl, e⟩
    · exact Or.inr (Or.inr ⟨rfl, rest⟩)

/-- No edge leaves the new exit. -/
theorem not_edge_exit_wrap (hinner : 0 < inner.size) (l : Label) (k : Nat) :
    ¬ (wrap next inner times).Edge (inner.size + 1) l k := by
  have hexit := exit_lt_size hinner
  intro e
  rcases (edge_wrap hinner).1 e with ⟨i', j', hi', -, e'⟩ | ⟨hi', -⟩ | ⟨hi', -⟩
  · exact absurd e'.lt_size (by omega)
  · omega
  · omega

/-- A path from inside the repeated fragment to the new exit first goes to the exit of the fragment;
what it consumes from there on may follow a word. -/
theorem path_wrap_cases (H : inner.Spells L) {start : Nat}
    (p : (wrap next inner times).Path start w k) (hk : k = inner.size + 1)
    (hstart : start = 1 + i) (hi : i < inner.size) :
    ∃ u v, w = u ++ v ∧ inner.Path i u inner.exit ∧ v ∈ times.further L := by
  -- by induction on the path, which may run through the fragment any number of times
  induction p generalizing i with
  | nil => omega
  | @epsilon _ j _ w e p ih =>
    subst hstart
    rcases (houses_wrap H.size_pos hi _ _).1 e with ⟨j', rfl, e'⟩ | ⟨rfl, -, rfl | ⟨hloop, rfl⟩⟩
    · obtain ⟨u, v, rfl, p', hv⟩ := ih hk rfl (H.inRange e')
      exact ⟨u, v, rfl, .epsilon e' p', hv⟩
    · -- the new exit is the end
      obtain ⟨rfl, -⟩ := p.eq_nil (not_edge_exit_wrap H.size_pos)
      refine ⟨[], [], rfl, .nil _, ?_⟩
      unfold Repetition.further
      split
      · exact Language.nil_mem_one
      · exact Language.nil_mem_kstar L
    · -- the fragment runs again, and its word is a part of what follows
      obtain ⟨u, v, rfl, p', hv⟩ := ih hk rfl H.size_pos
      rw [Repetition.further, if_neg hloop] at hv ⊢
      refine ⟨[], u ++ v, rfl, .nil _, ?_⟩
      rw [← Language.one_add_self_mul_kstar_eq_kstar]
      exact Or.inr (Language.append_mem_mul ((H.path_iff u).1 p') hv)
  | consume e hcp p ih =>
    subst hstart
    rcases (houses_wrap H.size_pos hi _ _).1 e with ⟨j', rfl, e'⟩ | ⟨-, hl, -⟩
    · obtain ⟨u, v, rfl, p', hv⟩ := ih hk rfl (H.inRange e')
      exact ⟨_ :: u, v, rfl, .consume e' hcp p', hv⟩
    · exact absurd hl (by simp)

/-- What may follow a word can be consumed from the exit of the repeated fragment on. -/
theorem path_wrap_of_mem_further (H : inner.Spells L) (hv : v ∈ times.further L) :
    (wrap next inner times).Path (1 + inner.exit) v (inner.size + 1) := by
  have hlast : (wrap next inner times).Path (1 + inner.exit) [] (inner.size + 1) :=
    .epsilon ((edge_wrap H.size_pos).2 (Or.inr (Or.inr ⟨rfl, rfl, Or.inl rfl⟩))) (.nil _)
  unfold Repetition.further at hv
  split at hv
  · rw [(Language.mem_one v).1 hv]
    exact hlast
  · rename_i hloop
    obtain ⟨words, rfl, hwords⟩ := Language.mem_kstar.1 hv
    clear hv
    -- each word goes through the fragment once and back to its entry
    induction words with
    | nil => exact hlast
    | cons word rest ih =>
      have p : (wrap next inner times).Path (1 + 0) word (1 + inner.exit) :=
        (houses_wrap H.size_pos).path H.inRange ((H.path_iff word).2 (hwords word (by simp)))
          H.size_pos
      have q := ih fun y hy => hwords y (List.mem_cons_of_mem word hy)
      exact .epsilon ((edge_wrap H.size_pos).2 (Or.inr (Or.inr ⟨rfl, rfl, Or.inr ⟨hloop, rfl⟩⟩)))
        (p.append q)

/-- A repeated graph has its edges in range. -/
theorem InRange.wrap (hinner : 0 < inner.size) (H : inner.InRange) (next : Nat)
    (times : Repetition) : (wrap next inner times).InRange := by
  intro i l j e
  rw [size_wrap]
  rcases (edge_wrap hinner).1 e with ⟨i', j', -, rfl, e'⟩ | ⟨-, -, hj⟩ | ⟨-, -, hj⟩
  · have := H e'
    omega
  · omega
  · omega

/-- A repeated graph spells the words that consist of as many words of the language as the
repetition allows. -/
theorem Spells.wrap (H : inner.Spells L) (next : Nat) (times : Repetition) :
    (wrap next inner times).Spells (times.language L) where
  size_pos := by simp
  inRange := H.inRange.wrap H.size_pos next times
  path_iff w := by
    rw [exit_wrap, Repetition.mem_language]
    constructor
    · intro p
      cases p with
      | epsilon e p =>
        rcases (edge_wrap H.size_pos).1 e with ⟨i', j', hi', -⟩ | ⟨-, -, rfl | ⟨hpass, rfl⟩⟩ |
          ⟨hi', -⟩
        · omega
        · -- into the inner fragment: the first round, then what further rounds spell
          obtain ⟨u, v, rfl, p', hv⟩ := path_wrap_cases H p rfl rfl H.size_pos
          exact Or.inr (Language.append_mem_mul ((H.path_iff u).1 p') hv)
        · -- straight to the exit, from where no edge leads on
          exact Or.inl ⟨hpass, (p.eq_nil (not_edge_exit_wrap H.size_pos)).1⟩
        · omega
      | consume e =>
        rcases (edge_wrap H.size_pos).1 e with ⟨i', j', hi', -⟩ | ⟨-, hl, -⟩ | ⟨-, hl, -⟩
        · omega
        · exact absurd hl (by simp)
        · exact absurd hl (by simp)
    · rintro (⟨hpass, rfl⟩ | hw)
      · exact .epsilon ((edge_wrap H.size_pos).2 (Or.inr (Or.inl ⟨rfl, rfl, Or.inr ⟨hpass, rfl⟩⟩)))
          (.nil _)
      · obtain ⟨u, hu, v, hv, rfl⟩ := Language.mem_mul.1 hw
        have p : (Graph.wrap next inner times).Path (1 + 0) u (1 + inner.exit) :=
          (houses_wrap H.size_pos).path H.inRange ((H.path_iff u).2 hu) H.size_pos
        exact .epsilon ((edge_wrap H.size_pos).2 (Or.inr (Or.inl ⟨rfl, rfl, Or.inl rfl⟩)))
          (p.append (path_wrap_of_mem_further H hv))

end Wrap

end Nfa.Graph

end MaximalMunch
