import MaximalMunch.Proofs.Tables.Validity
import MaximalMunch.Tables.BinaryFile

/-!
# Binary files are exact

Each reader of the binary form undoes one writer (`ByteReader.Undoes`): it accepts what the writer
writes, leaves whatever follows, and accepts nothing else. From the words up to whole tables these
equivalences are put together one bind at a time (`bind_eq_ok_iff`). So the tables in a file are
determined by the bytes that they take, and those bytes by the tables (`ofBinary_exact`).
-/

namespace MaximalMunch.Tables

open Text (Bytes)

/-! ## Readers and the writers that they undo -/

/-- The reader takes from the front of the bytes what `write` writes for a value with the property
`P`, and nothing else. -/
def ByteReader.Undoes {α : Type} (read : ByteReader α) (write : α → Bytes) (P : α → Prop) : Prop :=
  ∀ ⦃bytes a rest⦄, read bytes = .ok (a, rest) ↔ P a ∧ bytes = write a ++ rest

/-- What a reader that undoes a writer reads are exactly the things that are written so. -/
theorem ByteReader.Undoes.eq_ok_iff {α : Type} {read : ByteReader α} {write : α → Bytes}
    {P : α → Prop} (h : read.Undoes write P) {bytes rest : Bytes} {a : α} :
    read bytes = .ok (a, rest) ↔ P a ∧ bytes = write a ++ rest :=
  @h bytes a rest

section Readers

variable {α β : Type} {bytes rest : Bytes}

/-- A reader goes on where the one before it stopped. -/
theorem bind_eq_ok_iff {read : ByteReader α} {next : α → ByteReader β} {b : β} :
    (read >>= next) bytes = .ok (b, rest) ↔
      ∃ a mid, read bytes = .ok (a, mid) ∧ next a mid = .ok (b, rest) := by
  show (read bytes >>= fun p => next p.1 p.2) = _ ↔ _
  cases read bytes with
  | error e => simp [bind, Except.bind]
  | ok p =>
    constructor
    · intro h
      exact ⟨p.1, p.2, rfl, h⟩
    · rintro ⟨a, mid, hp, h⟩
      obtain rfl := Except.ok.inj hp
      exact h

/-- A reader that reads nothing leaves all bytes. -/
theorem pure_eq_ok_iff {a b : α} :
    (pure a : ByteReader α) bytes = .ok (b, rest) ↔ a = b ∧ bytes = rest := by
  show (Except.ok (a, bytes) : Except LoadError (α × Bytes)) = _ ↔ _
  simp

variable {read : ByteReader α} {write : α → Bytes} {P : α → Prop}

/-- A loop that reads `n` values after those in `found` takes what is written for the values, one
after the other. -/
theorem loop_eq_ok_iff (hread : read.Undoes write P)
    {loop : Array α → Nat → ByteReader (Array α)} (hzero : ∀ found, loop found 0 = pure found)
    (hsucc : ∀ found n, loop found (n + 1) = read >>= fun a => loop (found.push a) n)
    {all : Array α} : ∀ {n : Nat} {found : Array α} {bytes : Bytes},
      loop found n bytes = .ok (all, rest) ↔ ∃ as : List α, as.length = n ∧ (∀ a ∈ as, P a) ∧
        all = found ++ as.toArray ∧ bytes = as.flatMap write ++ rest := by
  -- the items already found grow along the loop, so they vary with the induction
  intro n
  induction n with
  | zero =>
    intro found bytes
    rw [hzero, pure_eq_ok_iff]
    constructor
    · rintro ⟨rfl, rfl⟩
      exact ⟨[], rfl, by simp, by simp, by simp⟩
    · rintro ⟨as, hlength, -, hall, hbytes⟩
      obtain rfl := List.eq_nil_of_length_eq_zero hlength
      exact ⟨by simpa using hall.symm, by simpa using hbytes⟩
  | succ n ih =>
    intro found bytes
    rw [hsucc, bind_eq_ok_iff]
    constructor
    · rintro ⟨a, mid, ha, h⟩
      obtain ⟨hP, rfl⟩ := hread.1 ha
      obtain ⟨as, rfl, hPs, rfl, rfl⟩ := ih.1 h
      exact ⟨a :: as, rfl, List.forall_mem_cons.2 ⟨hP, hPs⟩, by simp, by simp⟩
    · rintro ⟨as, hlength, hPs, rfl, rfl⟩
      obtain ⟨a, as, rfl⟩ := List.exists_cons_of_length_eq_add_one hlength
      obtain ⟨hP, hPs⟩ := List.forall_mem_cons.1 hPs
      refine ⟨a, as.flatMap write ++ rest, hread.2 ⟨hP, by simp⟩, ih.2 ⟨as, ?_, hPs, ?_, rfl⟩⟩
      · simpa using hlength
      · simp

/-- From nothing found, such a loop reads an array of `n` values. -/
theorem undoes_loop (hread : read.Undoes write P)
    {loop : Array α → Nat → ByteReader (Array α)} (hzero : ∀ found, loop found 0 = pure found)
    (hsucc : ∀ found n, loop found (n + 1) = read >>= fun a => loop (found.push a) n) (n : Nat) :
    (loop #[] n).Undoes (fun all => all.toList.flatMap write)
      fun all => all.size = n ∧ ∀ a ∈ all, P a := by
  intro bytes all rest
  rw [loop_eq_ok_iff hread hzero hsucc]
  constructor
  · rintro ⟨as, rfl, hPs, rfl, rfl⟩
    exact ⟨⟨by simp, by simpa using hPs⟩, by simp⟩
  · rintro ⟨⟨rfl, hPs⟩, rfl⟩
    exact ⟨all.toList, by simp, by simpa using hPs, by simp, rfl⟩

end Readers

/-! ## Words -/

/-- Four bytes are those of the word that they make. -/
theorem wordBytes_wordOf (a b c d : UInt8) : wordBytes (wordOf a b c d) = [a, b, c, d] := by
  have ha := a.toNat_lt
  have hb := b.toNat_lt
  have hc := c.toNat_lt
  have hd := d.toNat_lt
  have hw : (wordOf a b c d).toNat =
      a.toNat + 0x100 * b.toNat + 0x10000 * c.toNat + 0x1000000 * d.toNat :=
    UInt32.toNat_ofNat_of_lt' (by show _ < 4294967296; omega)
  have hbyte : ∀ (n : Nat) (x : UInt8), n % 0x100 = x.toNat → UInt8.ofNat n = x := fun n x h =>
    UInt8.toNat.inj (UInt8.toNat_ofNat'.trans h)
  rw [wordBytes, hw, hbyte _ a (by omega), hbyte _ b (by omega), hbyte _ c (by omega),
    hbyte _ d (by omega)]

/-- A word is made of its bytes. -/
theorem wordOf_wordBytes (w : UInt32) :
    wordOf (.ofNat w.toNat) (.ofNat (w.toNat / 0x100)) (.ofNat (w.toNat / 0x10000))
      (.ofNat (w.toNat / 0x1000000)) = w := by
  have hw := w.toNat_lt
  apply UInt32.toNat.inj
  simp only [wordOf, UInt8.toNat_ofNat', UInt32.toNat_ofNat']
  omega

/-- Words are read back from four bytes. -/
theorem undoes_readWord : readWord.Undoes wordBytes fun _ => True := by
  intro bytes w rest
  constructor
  · intro h
    match bytes, h with
    | a :: b :: c :: d :: more, h =>
      obtain ⟨rfl, rfl⟩ := Prod.mk.inj (Except.ok.inj h)
      exact ⟨trivial, by rw [wordBytes_wordOf]; rfl⟩
  · rintro ⟨-, rfl⟩
    show Except.ok (wordOf _ _ _ _, rest) = _
    rw [wordOf_wordBytes]

/-- A count in range is written as the word that it is. -/
theorem countBytes_toNat (w : UInt32) : countBytes w.toNat = wordBytes w := by
  rw [countBytes, UInt32.ofNat_toNat]

/-- A word is read as a count if it is one, and every count in range is one. -/
theorem exists_toNat_eq {n : Nat} (h : n < UInt32.size) : ∃ w : UInt32, w.toNat = n :=
  ⟨.ofNat n, UInt32.toNat_ofNat_of_lt' h⟩

/-- Words are read back one after the other. -/
theorem undoes_readWords (n : Nat) :
    (readWords #[] n).Undoes (fun ws => ws.toList.flatMap wordBytes)
      fun ws => ws.size = n ∧ ∀ w ∈ ws, True :=
  undoes_loop undoes_readWord (fun _ => rfl) (fun _ _ => rfl) n

/-- The classes of Latin-1 are read back. -/
theorem undoes_readVector (n : Nat) :
    (readVector n).Undoes (fun ws => ws.toList.flatMap wordBytes) fun _ => True := by
  induction n with
  | zero =>
    intro bytes ws rest
    rw [readVector, pure_eq_ok_iff]
    have hempty : #v[] = ws := Vector.eq_empty.symm
    subst hempty
    exact ⟨fun h => ⟨trivial, h.2⟩, fun h => ⟨rfl, h.2⟩⟩
  | succ n ih =>
    intro bytes ws rest
    rw [readVector, bind_eq_ok_iff]
    -- the last word follows the others
    have hsplit : ws.toList.flatMap wordBytes =
        ws.pop.toList.flatMap wordBytes ++ wordBytes ws.back := by
      have h := congrArg Vector.toList (Vector.push_pop_back ws)
      rw [Vector.toList_push] at h
      rw [← h, List.flatMap_append, List.flatMap_singleton]
    constructor
    · rintro ⟨before, mid, hbefore, h⟩
      obtain ⟨w, mid', hw, h⟩ := bind_eq_ok_iff.1 h
      obtain ⟨rfl, rfl⟩ := pure_eq_ok_iff.1 h
      obtain ⟨-, rfl⟩ := undoes_readWord.1 hw
      obtain ⟨-, rfl⟩ := ih.1 hbefore
      exact ⟨trivial, by simp [Vector.toList_push]⟩
    · rintro ⟨-, rfl⟩
      have hlast : (pure (ws.pop.push ws.back) : ByteReader _) rest = .ok (ws, rest) :=
        pure_eq_ok_iff.2 ⟨Vector.push_pop_back ws, rfl⟩
      refine ⟨ws.pop, wordBytes ws.back ++ rest, ih.2 ⟨trivial, ?_⟩,
        bind_eq_ok_iff.2 ⟨ws.back, rest, undoes_readWord.2 ⟨trivial, rfl⟩, hlast⟩⟩
      show ws.toList.flatMap wordBytes ++ rest = _
      rw [hsplit, List.append_assoc]

/-! ## Names and ranges -/

/-- Texts of a known length in bytes are read back. -/
theorem undoes_readText (length : Nat) :
    (readText length).Undoes Text.encode fun name => (Text.encode name).length = length := by
  intro bytes name rest
  rw [readText]
  split
  · rename_i hshort
    constructor
    · intro h
      exact absurd h (by simp)
    · rintro ⟨rfl, rfl⟩
      rw [List.length_append] at hshort
      omega
  · rename_i hlong
    constructor
    · intro h
      cases hdecode : Text.decode (bytes.take length) with
      | error fault =>
        rw [hdecode] at h
        exact absurd h (by simp)
      | ok text =>
        rw [hdecode] at h
        obtain ⟨rfl, rfl⟩ := Prod.mk.inj (Except.ok.inj h)
        show (Text.encode text).length = length ∧ bytes = Text.encode text ++ bytes.drop length
        -- bytes are cut off where the text ends, and decoding them is undone by encoding
        rw [← Text.decode_eq_ok_iff.1 hdecode]
        exact ⟨List.length_take_of_le (Nat.le_of_not_lt hlong), (List.take_append_drop _ _).symm⟩
    · rintro ⟨rfl, rfl⟩
      rw [List.take_left, List.drop_left, Text.decode_eq_ok_iff.2 rfl]

/-- A name has fewer than 2 ^ 32 bytes. -/
def NameFits (name : String) : Prop := (Text.encode name).length < UInt32.size

/-- Reads a name: its length, and as many bytes. -/
def readName : ByteReader String := do
  readText (← readWord).toNat

/-- Names are read back if their lengths fit. -/
theorem undoes_readName : readName.Undoes nameBytes NameFits := by
  intro bytes name rest
  rw [readName, bind_eq_ok_iff]
  constructor
  · rintro ⟨length, mid, hlength, h⟩
    obtain ⟨-, rfl⟩ := undoes_readWord.1 hlength
    obtain ⟨hname, rfl⟩ := (undoes_readText _).1 h
    refine ⟨?_, ?_⟩
    · rw [NameFits, hname]
      exact length.toNat_lt
    · rw [nameBytes, hname, countBytes_toNat, List.append_assoc]
  · rintro ⟨hfits, rfl⟩
    obtain ⟨length, hlength⟩ := exists_toNat_eq hfits
    refine ⟨length, Text.encode name ++ rest, undoes_readWord.2 ⟨trivial, ?_⟩,
      (undoes_readText _).2 ⟨hlength.symm, rfl⟩⟩
    rw [nameBytes, ← hlength, countBytes_toNat, List.append_assoc]

/-- Names are read one by one. -/
theorem readNames_succ (found : Array String) (n : Nat) :
    readNames found (n + 1) = readName >>= fun name => readNames (found.push name) n := by
  simp [readNames, readName]

/-- Names are read back one after the other. -/
theorem undoes_readNames (n : Nat) :
    (readNames #[] n).Undoes (fun names => names.toList.flatMap nameBytes)
      fun names => names.size = n ∧ ∀ name ∈ names, NameFits name :=
  undoes_loop undoes_readName (fun _ => rfl) readNames_succ n

/-- Reads a range. -/
def readRange : ByteReader ClassRange := do
  let lo ← readWord
  let hi ← readWord
  let classId ← readWord
  return { lo, hi, classId }

/-- Class ranges are read back. -/
theorem undoes_readRange : readRange.Undoes rangeBytes fun _ => True := by
  intro bytes r rest
  simp only [readRange, bind_eq_ok_iff, pure_eq_ok_iff]
  constructor
  · rintro ⟨lo, mid, hlo, hi, mid', hhi, classId, mid'', hclass, rfl, rfl⟩
    obtain ⟨-, rfl⟩ := undoes_readWord.1 hlo
    obtain ⟨-, rfl⟩ := undoes_readWord.1 hhi
    obtain ⟨-, rfl⟩ := undoes_readWord.1 hclass
    exact ⟨trivial, by simp [rangeBytes]⟩
  · rintro ⟨-, rfl⟩
    refine ⟨r.lo, wordBytes r.hi ++ (wordBytes r.classId ++ rest), ?_, r.hi,
      wordBytes r.classId ++ rest, undoes_readWord.2 ⟨trivial, rfl⟩, r.classId, rest,
      undoes_readWord.2 ⟨trivial, rfl⟩, rfl, rfl⟩
    exact undoes_readWord.2 ⟨trivial, by simp [rangeBytes]⟩

/-- Class ranges are read one by one. -/
theorem readRanges_succ (found : Array ClassRange) (n : Nat) :
    readRanges found (n + 1) = readRange >>= fun r => readRanges (found.push r) n := by
  simp [readRanges, readRange]

/-- Class ranges are read back one after the other. -/
theorem undoes_readRanges (n : Nat) :
    (readRanges #[] n).Undoes (fun rs => rs.toList.flatMap rangeBytes)
      fun rs => rs.size = n ∧ ∀ r ∈ rs, True :=
  undoes_loop undoes_readRange (fun _ => rfl) readRanges_succ n

/-! ## Tables -/

/-- The counts and lengths that a file of the tables states fit in 32 bits, and the bytes of the
matrix and the tokens can be counted in 64 bits. -/
structure Fits (t : Tables) : Prop where
  states : t.nStates < UInt32.size
  names : t.tokenNames.size < UInt32.size
  nameLengths : ∀ name ∈ t.tokenNames, NameFits name
  ranges : t.classRanges.size < UInt32.size
  matrix : 4 * (t.nStates * t.nClasses.toNat + t.nStates) < UInt64.size

/-- The size is accepted if it is computed without overflow and enough bytes are left. No byte is
read. -/
theorem checkSize_eq_ok_iff {states classes : Nat} {bytes rest : Bytes} :
    checkSize states classes bytes = .ok ((), rest) ↔
      4 * (states * classes + states) < UInt64.size ∧
        4 * (states * classes + states) ≤ bytes.length ∧ bytes = rest := by
  simp only [checkSize]
  split
  · rename_i h
    simp only [reduceCtorEq, false_iff]
    omega
  · split
    · rename_i h
      simp only [reduceCtorEq, false_iff]
      omega
    · rename_i hcountable henough
      constructor
      · intro h
        exact ⟨by omega, by omega, (Prod.mk.inj (Except.ok.inj h)).2⟩
      · rintro ⟨-, -, rfl⟩
        rfl

/-- Words take four bytes each. -/
theorem length_flatMap_wordBytes (ws : List UInt32) :
    (ws.flatMap wordBytes).length = 4 * ws.length := by
  induction ws with
  | nil => rfl
  | cons w rest ih =>
    rw [List.flatMap_cons, List.length_append, ih, List.length_cons, wordBytes]
    simp only [List.length_cons, List.length_nil]
    omega

/-- Behind the magic bytes, tables with a full matrix are read from what is written for them. -/
theorem readTables_eq_ok_iff {bytes rest : Bytes} {t : Tables} :
    readTables bytes = .ok (t, rest) ↔
      t.Fits ∧ t.next.size = t.nStates * t.nClasses.toNat ∧
        magic ++ bytes = t.toBinary ++ rest := by
  simp only [readTables, bind_eq_ok_iff, pure_eq_ok_iff, undoes_readWord.eq_ok_iff,
    (undoes_readNames _).eq_ok_iff, (undoes_readVector _).eq_ok_iff,
    (undoes_readRanges _).eq_ok_iff, (undoes_readWords _).eq_ok_iff]
  constructor
  · rintro ⟨states, _, ⟨-, rfl⟩, nClasses, _, ⟨-, rfl⟩, start, _, ⟨-, rfl⟩, names, _, ⟨-, rfl⟩,
      tokenNames, _, ⟨⟨hnames, hfit⟩, rfl⟩, latin1, _, ⟨-, rfl⟩, ranges, _, ⟨-, rfl⟩,
      classRanges, _, ⟨⟨hranges, -⟩, rfl⟩, ⟨⟩, _, hsize, next, _, ⟨⟨hnext, -⟩, rfl⟩,
      tokenOf, _, ⟨⟨hstates, -⟩, rfl⟩, rfl, rfl⟩
    obtain ⟨hmatrix, -, rfl⟩ := checkSize_eq_ok_iff.1 hsize
    refine ⟨⟨?_, ?_, hfit, ?_, ?_⟩, ?_, ?_⟩
    · rw [nStates, hstates]
      exact states.toNat_lt
    · rw [hnames]
      exact names.toNat_lt
    · rw [hranges]
      exact ranges.toNat_lt
    · rw [nStates, hstates]
      exact hmatrix
    · rw [nStates, hstates, hnext]
    · simp only [toBinary, nStates, hstates, hnames, hranges, countBytes_toNat, List.append_assoc]
  · rintro ⟨hfits, hnext, hbytes⟩
    obtain ⟨states, hstates⟩ := exists_toNat_eq hfits.states
    obtain ⟨names, hnames⟩ := exists_toNat_eq hfits.names
    obtain ⟨ranges, hranges⟩ := exists_toNat_eq hfits.ranges
    have hmatrix := hfits.matrix
    rw [← hstates] at hnext hmatrix
    rw [toBinary, ← hstates, ← hnames, ← hranges] at hbytes
    simp only [countBytes_toNat, List.append_assoc] at hbytes
    obtain rfl := List.append_cancel_left hbytes
    -- the matrix and the tokens are the last things written, so their bytes are there
    refine ⟨states, _, ⟨trivial, rfl⟩, t.nClasses, _, ⟨trivial, rfl⟩, t.start, _, ⟨trivial, rfl⟩,
      names, _, ⟨trivial, rfl⟩, t.tokenNames, _, ⟨⟨hnames.symm, hfits.nameLengths⟩, rfl⟩, t.latin1,
      _, ⟨trivial, rfl⟩, ranges, _, ⟨trivial, rfl⟩, t.classRanges, _,
      ⟨⟨hranges.symm, fun _ _ => trivial⟩, rfl⟩, (), _, checkSize_eq_ok_iff.2 ⟨hmatrix, ?_, rfl⟩,
      t.next, _, ⟨⟨hnext, fun _ _ => trivial⟩, rfl⟩, t.tokenOf, rest,
      ⟨⟨hstates.symm, fun _ _ => trivial⟩, rfl⟩, rfl, rfl⟩
    rw [List.length_append, List.length_append, length_flatMap_wordBytes,
      length_flatMap_wordBytes, Array.length_toList, Array.length_toList, hnext, hstates, nStates]
    omega

/-- The bytes of a file begin with the magic and the four counts. -/
theorem headerLength_le_length_toBinary (t : Tables) : headerLength ≤ t.toBinary.length := by
  simp only [toBinary, List.length_append, headerLength, magic, countBytes, wordBytes,
    List.length_cons, List.length_nil]
  omega

/-- Tables that a file can hold: their sizes fit, they have a cell for each state and class, and
they pass the checks. -/
structure Storable (t : Tables) : Prop extends t.Fits where
  cells : t.next.size = t.nStates * t.nClasses.toNat
  valid : t.validate = .ok t

/-- The tables of a file are those that stand behind its magic bytes, if these are valid. -/
theorem ofBinary_eq_ok_iff_readTables {bytes : Bytes} {t : Tables} :
    ofBinary (magic ++ bytes) = .ok t ↔ headerLength ≤ (magic ++ bytes).length ∧
      t.fault? = none ∧ ∃ rest, readTables bytes = .ok (t, rest) := by
  rw [ofBinary]
  split
  · rename_i hshort
    constructor
    · intro h
      exact absurd h (by simp)
    · rintro ⟨hlong, -⟩
      omega
  · rename_i hlong
    rw [List.take_left, if_neg (fun h => h rfl), List.drop_left]
    cases readTables bytes with
    | error e => simp [bind, Except.bind]
    | ok p =>
      obtain ⟨t', rest⟩ := p
      -- read in full; what is left is the check
      show t'.validate.mapError LoadError.invalid = _ ↔ _
      constructor
      · intro h
        cases hvalid : t'.validate with
        | error f =>
          rw [hvalid] at h
          cases h
        | ok valid =>
          rw [hvalid] at h
          obtain rfl := Except.ok.inj h
          obtain ⟨hfault, rfl⟩ := validate_eq_ok_iff.1 hvalid
          exact ⟨Nat.le_of_not_lt hlong, hfault, rest, rfl⟩
      · rintro ⟨-, hfault, rest', heq⟩
        obtain ⟨rfl, -⟩ := Prod.mk.inj (Except.ok.inj heq)
        rw [validate_eq_ok_iff.2 ⟨hfault, rfl⟩]
        rfl

/-- Files begin with the magic bytes. -/
theorem exists_eq_magic_append_of_ofBinary {bytes : Bytes} {t : Tables}
    (h : ofBinary bytes = .ok t) : ∃ more, bytes = magic ++ more := by
  rw [ofBinary] at h
  split at h
  · exact absurd h (by simp)
  · split at h
    · exact absurd h (by simp)
    · rename_i hmagic
      refine ⟨bytes.drop magic.length, ?_⟩
      conv => lhs; rw [← List.take_append_drop magic.length bytes]
      rw [Decidable.not_not.1 hmagic]

/-- A file holds storable tables if it begins with what is written for them. -/
theorem ofBinary_eq_ok_iff {bytes : Bytes} {t : Tables} :
    ofBinary bytes = .ok t ↔ t.Storable ∧ ∃ rest, bytes = t.toBinary ++ rest := by
  constructor
  · intro h
    obtain ⟨more, rfl⟩ := exists_eq_magic_append_of_ofBinary h
    obtain ⟨-, hfault, rest, hread⟩ := ofBinary_eq_ok_iff_readTables.1 h
    obtain ⟨hfits, hcells, hbytes⟩ := readTables_eq_ok_iff.1 hread
    exact ⟨⟨hfits, hcells, validate_eq_ok_iff.2 ⟨hfault, rfl⟩⟩, rest, hbytes⟩
  · rintro ⟨hstorable, rest, rfl⟩
    obtain ⟨hfault, -⟩ := validate_eq_ok_iff.1 hstorable.valid
    have hlength := headerLength_le_length_toBinary t
    obtain ⟨body, hbody⟩ : ∃ body, t.toBinary ++ rest = magic ++ body :=
      ⟨_, by simp only [toBinary, List.append_assoc]; rfl⟩
    have hread : readTables body = .ok (t, rest) :=
      readTables_eq_ok_iff.2 ⟨hstorable.toFits, hstorable.cells, hbody.symm⟩
    rw [hbody, ofBinary_eq_ok_iff_readTables, ← hbody, List.length_append]
    exact ⟨Nat.le_add_right_of_le hlength, hfault, rest, hread⟩

/-- What is read from a file are exactly the tables that can be stored, and the file begins with
what is written for them; anything may follow. So different tables never have the same bytes, and no
proper prefix of what is written is accepted. -/
theorem ofBinary_exact :
    (∀ bytes t, ofBinary bytes = .ok t ↔
      Storable t ∧ ∃ trailing, bytes = t.toBinary ++ trailing) ∧
    (∀ t t', Storable t → Storable t' → t.toBinary = t'.toBinary → t = t') ∧
    ∀ t bytes, Storable t → bytes <+: t.toBinary → bytes ≠ t.toBinary →
      ∃ e, ofBinary bytes = .error e := by
  have hself : ∀ {t}, Storable t → ofBinary t.toBinary = .ok t := fun h =>
    ofBinary_eq_ok_iff.2 ⟨h, [], (List.append_nil _).symm⟩
  refine ⟨fun bytes t => ofBinary_eq_ok_iff, fun t t' ht ht' heq => ?_,
    fun t bytes ht hprefix hne => ?_⟩
  · have hread := hself ht'
    rw [← heq, hself ht] at hread
    exact Except.ok.inj hread
  · cases hread : ofBinary bytes with
    | error e => exact ⟨e, rfl⟩
    | ok t' =>
      -- then the whole file holds these tables as well, and the prefix is no shorter than it
      obtain ⟨ht', rest, hbytes⟩ := ofBinary_eq_ok_iff.1 hread
      obtain ⟨missing, hmissing⟩ := hprefix
      have hwhole : ofBinary t.toBinary = .ok t' :=
        ofBinary_eq_ok_iff.2 ⟨ht', rest ++ missing, by
          rw [← hmissing, hbytes, List.append_assoc]⟩
      rw [hself ht] at hwhole
      obtain rfl := Except.ok.inj hwhole
      refine absurd (List.IsPrefix.eq_of_length_le ⟨missing, hmissing⟩ ?_) hne
      rw [hbytes, List.length_append]
      omega

/-- The tables of a token that is the letter `a`: they are read from what is written for them with a
byte behind it, and without its last byte this is no file. -/
theorem ofBinary_exact_letter :
    let t : Tables :=
      { latin1 := .ofFn fun cp => if cp = 0x61 then 1 else 0
        classRanges := #[]
        nClasses := 2
        next := #[noEntry, 1, noEntry, noEntry]
        tokenOf := #[noEntry, 0]
        tokenNames := #["letter"]
        start := 0 }
    t.Storable ∧ ofBinary (t.toBinary ++ [0]) = .ok t ∧
      t.toBinary.dropLast <+: t.toBinary ∧ t.toBinary.dropLast ≠ t.toBinary ∧
        ∃ e, ofBinary t.toBinary.dropLast = .error e := by
  intro t
  have ht : t.Storable := {
    states := by decide
    names := by decide
    nameLengths := fun name hname => by
      rw [Array.mem_singleton.1 hname]
      show (Text.encode "letter").length < UInt32.size
      decide
    ranges := by decide
    matrix := by decide
    cells := by decide
    valid := validate_eq_ok_iff.2 ⟨by decide +kernel, rfl⟩ }
  have hprefix : t.toBinary.dropLast <+: t.toBinary := List.dropLast_prefix _
  -- a file is never empty: it has a header
  have hne : t.toBinary.dropLast ≠ t.toBinary := by
    intro heq
    have hlength := congrArg List.length heq
    have hpos := headerLength_le_length_toBinary t
    rw [List.length_dropLast] at hlength
    simp only [headerLength] at hpos
    omega
  exact ⟨ht, (ofBinary_exact.1 _ _).2 ⟨ht, [0], rfl⟩, hprefix, hne,
    ofBinary_exact.2.2 _ _ ht hprefix hne⟩

end MaximalMunch.Tables
