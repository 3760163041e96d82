import MaximalMunch.CharClass.Tagged
import MaximalMunch.Proofs.CharClass.Atoms

/-!
# Joining tagged spans

`Span.Tagged.joinAll` keeps the map that a list of tagged spans stands for (`maps_joinAll`) and the
order of the spans (`increasing_joinAll`), and it leaves nothing to be joined (`joined_joinAll`).
-/

namespace MaximalMunch.Span.Tagged

variable {α : Type}

/-- A list of tagged spans gives a code point the tag `a`. -/
def Maps (l : List (Tagged α)) (cp : UInt32) (a : α) : Prop :=
  ∃ t ∈ l, t.contains cp = true ∧ t.tag = a

/-- Spans that are not empty, each of them behind those before it. -/
structure Increasing (l : List (Tagged α)) : Prop where
  proper : ∀ t ∈ l, t.lo.toNat ≤ t.hi.toNat
  ordered : l.Pairwise fun s t => s.hi.toNat < t.lo.toNat

theorem Increasing.nil : Increasing ([] : List (Tagged α)) := ⟨by simp, .nil⟩

/-- A span may come first if it ends before all others begin. -/
theorem Increasing.cons {s : Tagged α} {rest : List (Tagged α)} (hs : s.lo.toNat ≤ s.hi.toNat)
    (hrest : Increasing rest) (h : ∀ t ∈ rest, s.hi.toNat < t.lo.toNat) :
    Increasing (s :: rest) :=
  ⟨by simpa using ⟨hs, hrest.proper⟩, List.pairwise_cons.2 ⟨h, hrest.ordered⟩⟩

/-- The spans behind the first one are in increasing order as well. -/
theorem Increasing.tail {s : Tagged α} {rest : List (Tagged α)} (h : Increasing (s :: rest)) :
    Increasing rest :=
  ⟨fun t ht => h.proper t (List.mem_cons_of_mem s ht), (List.pairwise_cons.1 h.ordered).2⟩

/-- Of two spans that touch, the tags differ. -/
def Joined (l : List (Tagged α)) : Prop :=
  l.Pairwise fun s t => s.hi.toNat + 1 = t.lo.toNat → s.tag ≠ t.tag

/-- A code point is mapped by the first span or by a later one. -/
theorem maps_cons {s : Tagged α} {rest : List (Tagged α)} {cp : UInt32} {a : α} :
    Maps (s :: rest) cp a ↔ (s.contains cp = true ∧ s.tag = a) ∨ Maps rest cp a := by
  simp [Maps]

/-- Two spans that touch cover the code points of both. -/
theorem contains_joined {s t : Tagged α} (hs : s.lo.toNat ≤ s.hi.toNat)
    (ht : t.lo.toNat ≤ t.hi.toNat) (htouch : s.hi.toNat + 1 = t.lo.toNat) {cp : UInt32} :
    (Span.mk s.lo t.hi).contains cp = true ↔ s.contains cp = true ∨ t.contains cp = true := by
  rw [contains_iff, contains_iff, contains_iff]
  show s.lo.toNat ≤ cp.toNat ∧ cp.toNat ≤ t.hi.toNat ↔ _
  omega

variable [DecidableEq α]

/-- Joining keeps the map. -/
theorem maps_join {rest : List (Tagged α)} {cp : UInt32} {a : α} : ∀ {cur : Tagged α},
    (∀ t ∈ cur :: rest, t.lo.toNat ≤ t.hi.toNat) →
      (Maps (cur.join rest) cp a ↔ Maps (cur :: rest) cp a) := by
  induction rest with
  | nil => intro cur _; rfl
  | cons s rest ih =>
    intro cur hproper
    have hcur : cur.lo.toNat ≤ cur.hi.toNat := hproper cur (by simp)
    have hs : s.lo.toNat ≤ s.hi.toNat := hproper s (by simp)
    have hrest : ∀ t ∈ rest, t.lo.toNat ≤ t.hi.toNat := fun t ht => hproper t (by simp [ht])
    unfold join
    split
    · rename_i hjoin
      obtain ⟨htag, htouch⟩ := hjoin
      have hjoined : cur.lo.toNat ≤ s.hi.toNat := by omega
      rw [ih (by simpa using ⟨hjoined, hrest⟩), maps_cons, maps_cons, maps_cons, ← or_assoc]
      apply or_congr_left
      -- the joined span holds what the two spans hold
      rw [contains_joined hcur hs htouch, htag]
      exact or_and_right
    · rw [maps_cons, maps_cons (s := cur), ih (by simpa using ⟨hs, hrest⟩)]

/-- Joining all spans keeps the map. -/
theorem maps_joinAll {l : List (Tagged α)} (h : ∀ t ∈ l, t.lo.toNat ≤ t.hi.toNat) {cp : UInt32}
    {a : α} : Maps (joinAll l) cp a ↔ Maps l cp a := by
  cases l with
  | nil => rfl
  | cons s rest => exact maps_join h

/-- Joining keeps the order, and nothing begins before the span at hand. -/
theorem increasing_join {rest : List (Tagged α)} : ∀ {cur : Tagged α}, Increasing (cur :: rest) →
    Increasing (cur.join rest) ∧ ∀ t ∈ cur.join rest, cur.lo.toNat ≤ t.lo.toNat := by
  induction rest with
  | nil => intro cur h; exact ⟨h, by simp [join]⟩
  | cons s rest ih =>
    intro cur h
    have hcur : cur.lo.toNat ≤ cur.hi.toNat := h.proper cur (by simp)
    have hs : s.lo.toNat ≤ s.hi.toNat := h.proper s (by simp)
    have hfirst := (List.pairwise_cons.1 h.ordered).1
    have hcs : cur.hi.toNat < s.lo.toNat := hfirst s (by simp)
    unfold join
    split
    · -- the spans touch and are joined
      have hbehind := (List.pairwise_cons.1 h.tail.ordered).1
      exact ih (.cons (show cur.lo.toNat ≤ s.hi.toNat by omega) h.tail.tail hbehind)
    · -- `cur` is complete, and the rest is joined on its own
      obtain ⟨hinc, hlo⟩ := ih h.tail
      refine ⟨.cons hcur hinc fun t ht => ?_, fun t ht => ?_⟩
      · have := hlo t ht
        omega
      · rcases List.mem_cons.1 ht with rfl | ht
        · exact Nat.le_refl _
        · have := hlo t ht
          omega

/-- Joining all spans keeps the order. -/
theorem increasing_joinAll {l : List (Tagged α)} (h : Increasing l) : Increasing (joinAll l) := by
  cases l with
  | nil => exact .nil
  | cons s rest => exact (increasing_join h).1

/-- The first of the joined spans begins where the span at hand does and has its tag. -/
theorem join_eq_cons (rest : List (Tagged α)) : ∀ cur : Tagged α,
    ∃ hi later, cur.join rest = { cur with hi := hi } :: later := by
  induction rest with
  | nil => exact fun cur => ⟨cur.hi, [], rfl⟩
  | cons s rest ih =>
    intro cur
    unfold join
    split
    · exact ih _
    · exact ⟨cur.hi, s.join rest, rfl⟩

/-- What was not joined with the span at hand does not touch it or has another tag. -/
theorem joined_join {rest : List (Tagged α)} : ∀ {cur : Tagged α}, Increasing (cur :: rest) →
    Joined (cur.join rest) := by
  induction rest with
  | nil => exact fun _ => List.pairwise_singleton _ _
  | cons s rest ih =>
    intro cur h
    have hcs : cur.hi.toNat < s.lo.toNat := (List.pairwise_cons.1 h.ordered).1 s (by simp)
    unfold join
    split
    · have hcur := h.proper cur (by simp)
      have hs := h.proper s (by simp)
      have hbehind := (List.pairwise_cons.1 h.tail.ordered).1
      exact ih (.cons (show cur.lo.toNat ≤ s.hi.toNat by omega) h.tail.tail hbehind)
    · rename_i hnot
      refine List.pairwise_cons.2 ⟨fun t ht htouch htag => ?_, ih h.tail⟩
      -- only the first span behind `cur` can touch it, and that has the tag of `s`
      obtain ⟨hi, later, heq⟩ := join_eq_cons rest s
      have hinc := (increasing_join h.tail).1
      rw [heq] at ht hinc
      rcases List.mem_cons.1 ht with rfl | ht
      · exact hnot ⟨htag.symm, htouch⟩
      · have hfirst : s.lo.toNat ≤ hi.toNat := hinc.proper _ List.mem_cons_self
        have hlater : hi.toNat < t.lo.toNat := (List.pairwise_cons.1 hinc.ordered).1 t ht
        omega

/-- Joining all spans leaves nothing to be joined. -/
theorem joined_joinAll {l : List (Tagged α)} (h : Increasing l) : Joined (joinAll l) := by
  cases l with
  | nil => exact .nil
  | cons s rest => exact joined_join h

end MaximalMunch.Span.Tagged
