import MaximalMunch.Proofs.Definition.Master
import MaximalMunch.Proofs.Regex.Shape

/-!
# What holds of every builder

After any calls the graphs of the tokens are sealed and their ids together are the numbers up to the
count of issued ids (`Builder.Coherent`). With what `Builder.Represents` says of names, indices and
owners, this is all that the token graphs are relied on for (`representation_after`).

The master graph holds a copy of each token that is reported, one after the other
(`Builder.layout`), and its ids are its indices.
-/

namespace MaximalMunch

open Nfa (Graph)
open Nfa.Graph (Sealed Owned placed ids_acceptAtExit ids_alternatives ids_demoteExit)

/-! ## Tokens that grow -/

namespace TokenAutomaton

variable {t : TokenAutomaton} {other : Graph}

/-- A token that grows by a sealed graph stays sealed. -/
theorem sealed_alternate (ht : t.graph.Sealed) (hother : other.Sealed) (next : Nat) :
    (t.alternate other next).graph.Sealed := by
  have hparts : ∀ part ∈ [t.graph, other].map Graph.demoteExit, part.Sealed := by
    intro part hpart
    obtain ⟨g, hg, rfl⟩ := List.mem_map.1 hpart
    rcases List.mem_cons.1 hg with rfl | hg
    · exact ht.demoteExit
    · exact (List.mem_singleton.1 hg ▸ hother).demoteExit
  rw [alternate]
  split
  · exact (Sealed.alternatives hparts _ _).acceptAtExit _
  · exact Sealed.alternatives hparts _ _

/-- A token that grows keeps its ids and takes those of the other graph and two new ones. -/
theorem ids_alternate (t : TokenAutomaton) (other : Graph) (next : Nat) :
    (t.alternate other next).graph.ids = next :: (t.graph.ids ++ other.ids ++ [next + 1]) := by
  have hjoined : (Graph.alternatives next (next + 1) ([t.graph, other].map Graph.demoteExit)).ids =
      next :: (t.graph.ids ++ other.ids ++ [next + 1]) := by
    rw [ids_alternatives]
    simp
  rw [alternate]
  split
  · exact (ids_acceptAtExit _).trans hjoined
  · exact hjoined

end TokenAutomaton

/-- What a changed member has more, the list of all members' parts has more. -/
theorem flatMap_modify_perm {α β : Type} {f : α → α} {g : α → List β} {extra : List β} {a : α} :
    ∀ {as : List α} {i : Nat}, as[i]? = some a → (g (f a)).Perm (g a ++ extra) →
      ((as.modify i f).flatMap g).Perm (as.flatMap g ++ extra) := by
  intro as
  induction as with
  | nil => intro i ha; exact absurd ha (by simp)
  | cons b rest ih =>
    intro i ha hperm
    cases i with
    | zero =>
      obtain rfl : b = a := by simpa using ha
      rw [List.modify_zero_cons, List.flatMap_cons, List.flatMap_cons, List.append_assoc]
      refine (hperm.append_right _).trans ?_
      rw [List.append_assoc]
      exact List.perm_append_comm.append_left _
    | succ i =>
      rw [List.modify_succ_cons, List.flatMap_cons, List.flatMap_cons, List.append_assoc]
      exact (ih (by simpa using ha) hperm).append_left _

namespace Builder

/-- The ids of the states of all tokens. -/
def ids (b : Builder) : List Nat := b.tokens.toList.flatMap fun t => t.graph.ids

/-- The graphs of the tokens are sealed, and each issued id is that of one state of them. -/
structure Coherent (b : Builder) : Prop where
  sealed : ∀ t ∈ b.tokens, t.graph.Sealed
  ids : b.ids.Perm (List.range b.issued)

namespace Coherent

variable {b b' : Builder} {d : Declaration} {r : Regex}

theorem start : Builder.empty.Coherent where
  sealed t ht := absurd ht (Array.not_mem_empty t)
  ids := .nil

/-- Further ids go on where the issued ones end. -/
theorem perm_range_append (H : b.Coherent) {more : List Nat} {count : Nat}
    (hmore : more.Perm (List.range' b.issued count)) :
    (b.ids ++ more).Perm (List.range (b.issued + count)) := by
  have hrange : List.range (b.issued + count) =
      List.range b.issued ++ List.range' b.issued count := by
    rw [List.range_eq_range', List.range_eq_range', ← List.range'_append_1, Nat.zero_add]
  rw [hrange]
  exact H.ids.append hmore

/-- The graph of a pattern is sealed. -/
theorem sealed_fragmentOf (H : b.Coherent) {pattern : String}
    (hparse : Regex.parse pattern = .ok r)
    (hnames : ∀ n ∈ r.references, (b.resolve n).isSome = true) : (b.fragmentOf r).Sealed := by
  refine Regex.sealed_fragment (Regex.wellFormed_of_parse hparse) b.issued fun n hn => ?_
  obtain ⟨t, ht, heq⟩ := exists_mem_of_isSome_resolve (hnames n hn)
  exact heq ▸ H.sealed t ht

/-- A token is added for a new name. -/
theorem addToken (H : b.Coherent) (hfragment : (b.fragmentOf r).Sealed)
    (hindex : b.byName.lookup d.name = none) (D : b.Declares d.name d.internal r b') :
    b'.Coherent := by
  have htokens := D.tokens
  have hissued := D.issued
  rw [tokensAfter, hindex] at htokens
  rw [issuedAfter, hindex] at hissued
  constructor
  · intro t ht
    rw [htokens] at ht
    rcases Array.mem_push.1 ht with ht | rfl
    · exact H.sealed t ht
    · exact hfragment.acceptAtExit _
  · rw [Builder.ids, htokens, hissued, Array.toList_push, List.flatMap_append,
      List.flatMap_singleton, ids_acceptAtExit]
    exact H.perm_range_append (Regex.ids_fragment r b.issued)

/-- The token with a known name is extended. -/
theorem extendToken (H : b.Coherent) (hfragment : (b.fragmentOf r).Sealed) {k : Nat}
    (hindex : b.byName.lookup d.name = some k) (hk : k < b.tokens.size)
    (D : b.Declares d.name d.internal r b') : b'.Coherent := by
  have htokens := D.tokens
  have hissued := D.issued
  rw [tokensAfter, hindex] at htokens
  rw [issuedAfter, hindex] at hissued
  constructor
  · intro t ht
    obtain ⟨i, hi⟩ := Array.getElem?_of_mem ht
    rw [htokens, Array.getElem?_modify] at hi
    split at hi
    · obtain ⟨t', ht', rfl⟩ := Option.map_eq_some_iff.1 hi
      exact TokenAutomaton.sealed_alternate (H.sealed t' (Array.mem_of_getElem? ht'))
        (hfragment.acceptAtExit _) _
    · exact H.sealed t (Array.mem_of_getElem? hi)
  · -- the new ends take the two ids behind those of the fragment
    have hmore : ((b.fragmentOf r).ids ++
        List.range' (b.issued + (b.fragmentOf r).size) 2).Perm
          (List.range' b.issued ((b.fragmentOf r).size + 2)) := by
      rw [← List.range'_append_1]
      exact (Regex.ids_fragment r b.issued).append_right _
    rw [Builder.ids, htokens, hissued, Array.toList_modify]
    have hget := Array.getElem?_toList.trans (Array.getElem?_eq_getElem hk)
    refine (flatMap_modify_perm hget ?_).trans (H.perm_range_append hmore)
    rw [TokenAutomaton.ids_alternate, ids_acceptAtExit, Graph.size_acceptAtExit]
    rw [← List.append_assoc]
    exact List.perm_middle.symm

/-- A declaration keeps a builder coherent. The map of names has to be in step with the tokens: an
extended token must be there, or the ids of its further pattern would belong to no state. -/
theorem declares (H : b.Coherent) (S : b.InStep) {pattern : String}
    (hparse : Regex.parse pattern = .ok r) (D : b.Declares d.name d.internal r b') :
    b'.Coherent := by
  have hfragment := H.sealed_fragmentOf hparse D.resolves
  cases hindex : b.byName.lookup d.name with
  | none => exact H.addToken hfragment hindex D
  | some k =>
    obtain ⟨t, ht, -⟩ := S.exists_token hindex
    exact H.extendToken hfragment hindex (Array.getElem?_eq_some_iff.1 ht).1 D

end Coherent

/-- After any calls the builder is coherent. -/
theorem coherent_after (calls : List Call) : (after calls).Coherent := by
  have h : (after calls).InStep ∧ (after calls).Coherent := by
    -- the names in step say which token a call extends, so both are carried along
    refine after_induction (P := fun b _ => b.InStep ∧ b.Coherent) ⟨.start, .start⟩ ?_ calls
    rintro b ds d line b' ⟨S, H⟩ hdeclare
    obtain ⟨r, hparse, D⟩ := declares_of_declare hdeclare
    exact ⟨S.declares D, H.declares S hparse D⟩
  exact h.2

/-! ## The master graph -/

/-- The ids of the parts go on from the first one. -/
theorem flatMap_ids_parts (ts : List TokenAutomaton) : ∀ next : Nat,
    (parts next ts).flatMap Graph.ids = List.range' next (Graph.totalSize (parts next ts)) := by
  induction ts with
  | nil => intro next; rfl
  | cons t rest ih =>
    intro next
    rw [parts, List.flatMap_cons, ih, ids_acceptAtExit, Graph.ids_copy, Graph.totalSize_cons,
      Graph.size_acceptAtExit, Graph.size_copy, List.range'_append_1]

/-- The ids of the master graph are its indices. -/
theorem ids_masterGraph (b : Builder) : b.masterGraph.ids = List.range b.masterGraph.size := by
  rw [masterGraph_eq, Graph.ids_branch, Graph.size_branch, flatMap_ids_parts, List.range_eq_range',
    ← List.range'_append_1]
  rfl

/-- The id of a state of the master graph is its index. -/
theorem id_masterGraph {b : Builder} {k : Nat} {s : Nfa.State}
    (hs : b.masterGraph.states[k]? = some s) : s.id = k := by
  have hid := Graph.getElem?_ids (g := b.masterGraph) k
  have hk : k < b.masterGraph.size := (Array.getElem?_eq_some_iff.1 hs).1
  rw [ids_masterGraph, List.getElem?_range hk, hs] at hid
  exact (Option.some.inj hid).symm

/-- The start of the master graph leads to the first states of the copies, in their order. -/
theorem transitions_start_masterGraph (b : Builder) : b.masterGraph.transitions 0 =
    (layout 1 b.emitted).map fun p => ⟨.epsilon, p.1⟩ := by
  have hstart : (Graph.empty.add { id := 0 }).transitions 0 = [] := rfl
  have hsize : (Graph.empty.add { id := 0 }).size = 1 := rfl
  rw [masterGraph_eq, Graph.transitions_start_branch (by simp), hstart, hsize, placed_parts,
    List.map_map, List.nil_append]
  rfl

/-- The place of a token holds a copy of its graph, which nothing leaves. -/
theorem houses_masterGraph {b : Builder} {o : Nat} {t : TokenAutomaton}
    (h : (o, t) ∈ layout 1 b.emitted) : b.masterGraph.Houses t.graph o fun _ => False := by
  intro i hi l j
  have hpart : b.masterGraph.Houses ((t.graph.copy o).acceptAtExit [t.index]) o
      fun _ => False := by
    rw [masterGraph_eq]
    exact Graph.houses_branch (mem_placed_parts.2 ⟨t, h, rfl⟩)
  rw [hpart (by simpa using hi), Graph.exit_acceptAtExit, Graph.exit_copy]
  simp only [Graph.Edge, Graph.transitions_acceptAtExit, Graph.transitions_copy]

/-- A token has one place if the tokens are different. -/
theorem eq_of_mem_layout {ts : List TokenAutomaton} (hts : ts.Nodup) {o o' : Nat}
    {t : TokenAutomaton} : ∀ {offset : Nat}, (o, t) ∈ layout offset ts →
      (o', t) ∈ layout offset ts → o = o' := by
  induction ts with
  | nil => intro offset h; exact absurd h List.not_mem_nil
  | cons first rest ih =>
    intro offset h h'
    obtain ⟨hfirst, hrest⟩ := List.nodup_cons.1 hts
    rcases List.mem_cons.1 h with heq | h <;> rcases List.mem_cons.1 h' with heq' | h'
    · exact (Prod.mk.inj heq).1.trans (Prod.mk.inj heq').1.symm
    · exact absurd ((Prod.mk.inj heq).2 ▸ mem_of_mem_layout h') hfirst
    · exact absurd ((Prod.mk.inj heq').2 ▸ mem_of_mem_layout h) hfirst
    · exact ih hrest h h'

namespace Represents

variable {b : Builder} {ds : List Declaration}

/-- Every place among the tokens is the index of one name. -/
theorem exists_unique_name (R : b.Represents ds) {i : Nat} (hi : i < b.tokens.size) :
    ∃! name, b.byName.lookup name = some i := by
  obtain ⟨name, hname, -⟩ := R.token i _ (Array.getElem?_eq_getElem hi)
  have hnameAt : nameAt b.tokens i = some (some name) := by
    rw [nameAt, Array.getElem?_eq_getElem hi, Option.map_some, hname]
  refine ⟨name, (R.inStep name i).2 hnameAt, fun name' hname' => ?_⟩
  have h := (R.inStep name' i).1 hname'
  exact Option.some.inj (Option.some.inj (h.symm.trans hnameAt))

/-- The declared names are those with an index among the tokens. -/
theorem mem_declared_iff (R : b.Represents ds) {name : String} :
    name ∈ ds.map (·.name) ↔ ∃ i < b.tokens.size, b.byName.lookup name = some i := by
  rw [← R.known, Option.isSome_iff_exists]
  refine exists_congr fun i => ⟨fun h => ⟨?_, h⟩, fun h => h.2⟩
  obtain ⟨t, ht, -⟩ := R.inStep.exists_token h
  exact (Array.getElem?_eq_some_iff.1 ht).1

/-- The master graph has its edges in range. -/
theorem inRange_masterGraph (R : b.Represents ds) : b.masterGraph.InRange := by
  rw [masterGraph_eq]
  exact .branch R.size_pos_and_inRange_of_mem_parts 0

/-- The reported tokens are different from each other. -/
theorem nodup_emitted (R : b.Represents ds) : b.emitted.Nodup := by
  refine (R.pairwise_index.filter _).imp fun hlt heq => ?_
  exact absurd hlt (by rw [heq]; exact Nat.lt_irrefl _)

/-- Each token that is reported owns one accepting state of the master graph. -/
theorem exists_unique_accepting (R : b.Represents ds) {t : TokenAutomaton} (ht : t ∈ b.emitted) :
    ∃! k, ∃ owners, b.masterGraph.marks k = some (true, owners) ∧ t.index ∈ owners := by
  obtain ⟨o, ho⟩ := exists_mem_layout 1 ht
  have hexit := R.accepting_iff.2 ⟨o, t, ho, rfl, rfl⟩
  refine ⟨o + t.graph.exit, ⟨_, hexit, List.mem_singleton.2 rfl⟩, ?_⟩
  rintro k ⟨owners, hmarks, howner⟩
  obtain ⟨o', t', ho', rfl, rfl⟩ := R.accepting_iff.1 hmarks
  -- the owner is the token itself, which stands in one place
  have ht' := R.getElem?_index (mem_tokens_of_mem_emitted (mem_of_mem_layout ho'))
  rw [← List.mem_singleton.1 howner, R.getElem?_index (mem_tokens_of_mem_emitted ht)] at ht'
  obtain rfl := Option.some.inj ht'
  rw [eq_of_mem_layout R.nodup_emitted ho' ho]

end Represents

end Builder

/-- After any calls, failing ones included, a token has its place as index, its graph is sealed, and
it accepts at its exit alone, for its own index. The map of names leads to a place exactly from the
name of the token there. So it holds the declared names and no others, and it is a bijection between
them and the places. The ids of all graphs together are the issued ones, each once. The master graph
has its indices as ids and its transitions in range. Its start leads to the first states of the
copies of those tokens that are not internal, in the order of declaration, and each of these tokens
owns one accepting state of it; no other state accepts, and no accepting state has a further
owner. -/
theorem representation_after (calls : List Builder.Call) :
    let b := Builder.after calls
    let master := b.finish.masterNfa.graph
    let copies := Builder.layout 1 b.emitted
    (∀ (i : Nat) (t : TokenAutomaton), b.tokens[i]? = some t →
      t.index = i ∧ t.graph.Sealed ∧ t.graph.Owned [i]) ∧
    (∀ name i, b.byName.lookup name = some i ↔ ∃ t, b.tokens[i]? = some t ∧ t.name = some name) ∧
    (∀ name, name ∈ (Builder.empty.declared calls).map (·.name) ↔
      ∃ i < b.tokens.size, b.byName.lookup name = some i) ∧
    (∀ i < b.tokens.size, ∃! name, b.byName.lookup name = some i) ∧
    (b.tokens.toList.flatMap fun t => t.graph.ids).Perm (List.range b.issued) ∧
    (∀ (k : Nat) (s : Nfa.State), master.states[k]? = some s → s.id = k) ∧
    master.InRange ∧
    (copies.map (·.2) = b.emitted ∧ master.transitions 0 = copies.map fun p => ⟨.epsilon, p.1⟩) ∧
    (∀ o t, (o, t) ∈ copies → master.Houses t.graph o fun _ => False) ∧
    (∀ k owners, master.marks k = some (true, owners) → ∃ t ∈ b.emitted, owners = [t.index]) ∧
    ∀ t ∈ b.emitted, ∃! k, ∃ owners, master.marks k = some (true, owners) ∧ t.index ∈ owners := by
  intro b master copies
  have R : b.Represents (Builder.empty.declared calls) := Builder.represents_after calls
  have H : b.Coherent := Builder.coherent_after calls
  refine ⟨fun i t ht => ?_, fun name i => ?_, fun name => R.mem_declared_iff,
    fun i hi => R.exists_unique_name hi, H.ids,
    fun k s hs => Builder.id_masterGraph hs, R.inRange_masterGraph,
    ⟨Builder.map_snd_layout _ _, Builder.transitions_start_masterGraph b⟩,
    fun o t h => Builder.houses_masterGraph h, fun k owners h => ?_,
    fun t ht => R.exists_unique_accepting ht⟩
  · obtain ⟨name, -, hspells⟩ := R.token i t ht
    exact ⟨hspells.index_eq, H.sealed t (Array.mem_of_getElem? ht), hspells.owned⟩
  · exact (R.inStep name i).trans Option.map_eq_some_iff
  · -- an accepting state lies in one of the copies laid out
    obtain ⟨o, t, ho, -, howners⟩ := R.accepting_iff.1 h
    exact ⟨t, Builder.mem_of_mem_layout ho, howners⟩

/-- A token that is declared twice and refers to another one. -/
theorem representation_after_twice :
    let b := Builder.after
      [.declare "x" "a" true 1, .declare "y" "{x}b" false 2, .declare "y" "c" false 3]
    b.byName.lookup "y" = some 1 ∧
    ∃ t, b.tokens[1]? = some t ∧ t.name = some "y" ∧ t.index = 1 ∧ t.graph.Sealed ∧
      t.graph.Owned [1] ∧ ∃! k, ∃ owners,
        b.finish.masterNfa.graph.marks k = some (true, owners) ∧ t.index ∈ owners := by
  have hsecond : (Builder.after [.declare "x" "a" true 1, .declare "y" "{x}b" false 2,
      .declare "y" "c" false 3]).tokens[1]?.map (fun t => (t.name, t.internal)) =
        some (some "y", false) := by rfl
  obtain ⟨t, ht, hheading⟩ := Option.map_eq_some_iff.1 hsecond
  obtain ⟨hname, hinternal⟩ := Prod.mk.inj hheading
  obtain ⟨htoken, hlookup, -, -, -, -, -, -, -, -, haccepting⟩ := representation_after
    [.declare "x" "a" true 1, .declare "y" "{x}b" false 2, .declare "y" "c" false 3]
  obtain ⟨hindex, hsealed, howned⟩ := htoken 1 t ht
  have hmem := Array.mem_toList_iff.2 (Array.mem_of_getElem? ht)
  refine ⟨(hlookup "y" 1).2 ⟨t, ht, hname⟩, t, ht, hname, hindex, hsealed, howned,
    haccepting t (List.mem_filter.2 ⟨hmem, ?_⟩)⟩
  rw [hinternal]
  rfl

end MaximalMunch
