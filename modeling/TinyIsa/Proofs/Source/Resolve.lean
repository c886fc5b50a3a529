import Mathlib
import TinyIsa.Proofs.Architecture
import TinyIsa.Proofs.Source.Outline
import TinyIsa.Source.Parse

/-!
# Both passes over a source

The first pass gives every instruction an address and every label a place in the table; the
second one puts numbers in the place of references.

* `Instruction.substitute`: an instruction with the numbers of a table.
* `resolve_eq_ok`: an instruction is resolved when its labels are defined and the numbers fit.
* `LaidOut`: the addresses and the labels of a program, from the lines of its source.
* `parse_passes`: **the second pass substitutes what the first one found**, and fails where the
  first one does.
-/

namespace TinyIsa

open InstructionSet

variable {Op : Type} [InstructionSet Op]

/-! ### An instruction -/

/-- An argument with the number of a table in the place of a reference. -/
def Instruction.substituteArg (table : String → Option ℕ) (i : Instruction Op) (arg : String) : String :=
  if (dialect Op).isReference arg then
    Text.decimal (i.body.labelValue ((table (Dialect.referent arg)).getD 0) (i.address.getD 0))
  else arg

/-- The instruction with the numbers of a table in the place of references. -/
def Instruction.substitute (table : String → Option ℕ) (i : Instruction Op) : Instruction Op :=
  { i with body := i.body.withArgs (i.body.args.map (i.substituteArg table)) }

/-- Every reference of an instruction is to a label of the table. -/
def Instruction.Defined (table : String → Option ℕ) (i : Instruction Op) : Prop :=
  ∀ arg ∈ i.body.args, (dialect Op).isReference arg = true →
    ∃ target, table (Dialect.referent arg) = some target

omit [InstructionSet Op] in
theorem Body.withArgs_args (b : Body Op) : b.withArgs b.args = b := by
  cases b <;> rfl

variable {table : String → Option ℕ} {i i' : Instruction Op}

theorem resolveArg_eq_ok {arg arg' : String} : i.resolveArg table arg = .ok arg' ↔
    ((dialect Op).isReference arg = true → ∃ target, table (Dialect.referent arg) = some target) ∧
      arg' = i.substituteArg table arg := by
  unfold Instruction.resolveArg Instruction.substituteArg
  by_cases h : (dialect Op).isReference arg = true
  · rw [if_pos h, if_pos h]
    cases ht : table (Dialect.referent arg) with
    | none =>
      simp only [ht]
      constructor
      · intro hr
        exact absurd hr (by simp)
      · rintro ⟨hd, -⟩
        obtain ⟨target, htarget⟩ := hd h
        exact absurd htarget (by simp)
    | some target =>
      simp only [ht, Option.getD_some]
      constructor
      · intro hr
        exact ⟨fun _ => ⟨target, rfl⟩, (Except.ok.inj hr).symm⟩
      · rintro ⟨-, rfl⟩
        rfl
  · rw [if_neg h, if_neg h]
    constructor
    · intro hr
      exact ⟨fun href => absurd href h, (Except.ok.inj hr).symm⟩
    · rintro ⟨-, rfl⟩
      rfl

/-- Without references nothing is substituted. -/
theorem substitute_of_not_any (h : ¬i.body.args.any (dialect Op).isReference = true) :
    i.substitute table = i := by
  have hargs : i.body.args.map (i.substituteArg table) = i.body.args := by
    rw [List.map_congr_left (g := id), List.map_id]
    intro arg harg
    unfold Instruction.substituteArg
    rw [if_neg]
    · rfl
    · intro href
      exact h (List.any_eq_true.2 ⟨arg, harg, href⟩)
  unfold Instruction.substitute
  rw [hargs, Body.withArgs_args]

/-- **An instruction is resolved** when its labels are defined and the numbers fit their fields. -/
theorem resolve_eq_ok (hi : ∃ code, i.code = .ok code) : i.resolve table = .ok i' ↔
    (i.Defined table ∧ ∃ code, (i.substitute table).code = .ok code) ∧ i' = i.substitute table := by
  have hargs : ∀ args, i.body.args.mapM (i.resolveArg table) = .ok args ↔
      i.Defined table ∧ args = i.body.args.map (i.substituteArg table) :=
    fun args => mapM_eq_ok_iff fun arg _ arg' => resolveArg_eq_ok
  unfold Instruction.resolve
  rw [bind_eq_ok]
  simp only [hargs]
  by_cases h : i.body.args.any (dialect Op).isReference = true
  · -- the numbers are checked when there is a reference
    simp only [if_pos h]
    constructor
    · rintro ⟨args, ⟨hd, rfl⟩, hr⟩
      obtain ⟨⟨code, hcode⟩, hr⟩ := discard_bind_eq_ok.1 hr
      exact ⟨⟨hd, code, mapError_eq_ok.1 hcode⟩, (Except.ok.inj hr).symm⟩
    · rintro ⟨⟨hd, code, hcode⟩, rfl⟩
      exact ⟨_, ⟨hd, rfl⟩, discard_bind_eq_ok.2 ⟨⟨code, mapError_eq_ok.2 hcode⟩, rfl⟩⟩
  · -- without one the instruction is as it was when it was read
    simp only [if_neg h]
    rw [substitute_of_not_any h]
    constructor
    · rintro ⟨args, ⟨hd, rfl⟩, hr⟩
      have hr' : i.substitute table = i' := Except.ok.inj hr
      rw [substitute_of_not_any h] at hr'
      exact ⟨⟨hd, hi⟩, hr'.symm⟩
    · rintro ⟨⟨hd, -⟩, rfl⟩
      refine ⟨_, ⟨hd, rfl⟩, ?_⟩
      change Except.ok (i'.substitute table) = _
      rw [substitute_of_not_any h]

/-- The arguments are those of the instruction, one by one. -/
theorem args_substitute : (i.substitute table).body.args = i.body.args.map (i.substituteArg table) := by
  unfold Instruction.substitute
  cases i.body <;> rfl

/-- **No reference is left.** -/
theorem not_isReference_substitute [Lawful Op] {arg : String}
    (h : arg ∈ (i.substitute table).body.args) : (dialect Op).isReference arg = false := by
  rw [args_substitute] at h
  obtain ⟨arg', -, rfl⟩ := List.mem_map.1 h
  unfold Instruction.substituteArg
  by_cases href : (dialect Op).isReference arg' = true
  · rw [if_pos href]
    exact Dialect.isReference_decimal Lawful.distinct _
  · rw [if_neg href]
    exact eq_false_of_ne_true href

/-- Numbers take as much room as the references that they replace. -/
theorem wordCount_substitute : (i.substitute table).wordCount = i.wordCount := by
  unfold Instruction.wordCount Instruction.substitute
  cases i.body with
  | operation op args => rfl
  | data values => exact List.length_map _
  | remark => rfl

/-- **Numbers in the place of references leave the form of an operation as it is.** -/
theorem accepted_substitute [Lawful Op] (h : i.Sound) {op : Op} {args : List String}
    (hb : (i.substitute table).body = .operation op args) : accepts op args = true := by
  have hresolves : ∀ arg, Resolves (dialect Op) arg (i.substituteArg table arg) := by
    intro arg
    unfold Instruction.substituteArg
    by_cases href : (dialect Op).isReference arg = true
    · rw [if_pos href]
      exact Or.inr ⟨href, _, rfl⟩
    · rw [if_neg href]
      exact Or.inl rfl
  unfold Instruction.substitute at hb
  cases hi : i.body with
  | operation op' args' =>
    rw [hi] at hb
    obtain ⟨rfl, rfl⟩ := Body.operation.inj hb
    refine Lawful.accepts_resolved ?_ (h.accepted _ _ hi)
    exact List.forall₂_map_right_iff.2 (List.forall₂_same.2 fun arg _ => hresolves arg)
  | data values => rw [hi] at hb; exact absurd hb (by simp [Body.withArgs])
  | remark => rw [hi] at hb; exact absurd hb (by simp [Body.withArgs])

theorem signedAddress_eq {v : ℤ} (h : v.natAbs < 2 ^ 63) : signedAddress v = v := by
  have hsize : UInt64.size = 2 ^ 64 := rfl
  unfold signedAddress
  rw [hsize]
  exact Int.bmod_eq_of_le (by omega) (by omega)

/-- A label stands for its address in data, as long as it is a signed number of 64 bits. -/
theorem labelValue_data (values : List String) {target : ℕ} (address : ℕ) (h : target < 2 ^ 63) :
    (Body.data values : Body Op).labelValue target address = target :=
  signedAddress_eq h

/-! ### A program -/

/-- What the addresses and the labels of the program of some lines are. -/
structure LaidOut (lines : List SourceLine) (table : String → Option ℕ) (p : List (Instruction Op)) :
    Prop where
  sound : ∀ i ∈ p, i.Sound
  /-- An instruction stands behind the words of those before it. -/
  address : ∀ k i, p[k]? = some i → i.address = some (totalWords (p.take k))
  /-- The labels of the lines are those of the instructions. -/
  labels : p.flatMap Instruction.labels = lines.flatMap SourceLine.labels
  /-- A label names the address of its instruction. -/
  carried : ∀ i ∈ p, ∀ l ∈ i.labels, table l.name = i.address
  /-- A label names the number of words on the lines before its own. -/
  label : ∀ name target, table name = some target ↔ ∃ n l label, lines[n]? = some l ∧
    label ∈ l.labels ∧ label.name = name ∧ target = ((lines.take n).map (SourceLine.words Op)).sum

theorem parseRows_eq_ok {rows : List SourceRow} {p : List (Instruction Op)}
    {table : Std.HashMap String ℕ} : parseRows rows = .ok (p, table) ↔ ∃ lines program,
      rows.mapM (SourceLine.ofRow (dialect Op)) = .ok lines ∧
      (Outline.ofLines lines).program rows.length = .ok program ∧
      labelTable (labelAddresses (place program)) = .ok table ∧ p = place program := by
  unfold parseRows
  simp only [bind_eq_ok]
  constructor
  · rintro ⟨lines, hlines, program, hprogram, table', htable, h⟩
    obtain ⟨rfl, rfl⟩ := Prod.mk.inj (Except.ok.inj h)
    exact ⟨lines, program, hlines, hprogram, htable, rfl⟩
  · rintro ⟨lines, program, hlines, hprogram, htable, rfl⟩
    exact ⟨lines, hlines, program, hprogram, table, htable, rfl⟩

/-- Addresses and labels are all that placing adds to a program. -/
theorem mem_placeFrom {a : ℕ} {program : List (Instruction Op)} (h : i ∈ placeFrom a program) :
    ∃ i₀ ∈ program, ∃ address, i = { i₀ with address := some address } := by
  obtain ⟨k, hk⟩ := List.mem_iff_getElem?.1 h
  rw [getElem?_placeFrom] at hk
  obtain ⟨i₀, hi₀, rfl⟩ := Option.map_eq_some_iff.1 hk
  exact ⟨i₀, List.mem_of_getElem? hi₀, _, rfl⟩

/-- Numbers in the place of references move nothing. -/
theorem placeFrom_substitute (a : ℕ) (p : List (Instruction Op)) :
    placeFrom a ((placeFrom a p).map (·.substitute table)) = (placeFrom a p).map (·.substitute table) := by
  induction p generalizing a with
  | nil => rfl
  | cons i p ih =>
    have hwords : (({ i with address := some a } : Instruction Op).substitute table).wordCount =
        i.wordCount := wordCount_substitute
    rw [placeFrom, List.map_cons, placeFrom, hwords, ih]
    rfl

/-- Numbers in the place of references leave the labels where they are. -/
theorem labelAddresses_substitute (p : List (Instruction Op)) :
    labelAddresses (p.map (·.substitute table)) = labelAddresses p := by
  unfold labelAddresses
  rw [List.flatMap_map]
  rfl

/-- **The program of some lines is laid out.** -/
theorem laidOut_place {lines : List SourceLine} {last : ℕ} {program : List (Instruction Op)}
    {table : Std.HashMap String ℕ} (hprogram : (Outline.ofLines lines).program last = .ok program)
    (htable : labelTable (labelAddresses (place program)) = .ok table) :
    LaidOut lines table.get? (place program) := by
  have hlabels := labelAddresses_program hprogram 0
  have hget := labelTable_eq_ok htable
  rw [place_eq] at hget ⊢
  refine ⟨?_, ?_, ?_, ?_, ?_⟩
  · intro i hi
    obtain ⟨i₀, hi₀, address, rfl⟩ := mem_placeFrom hi
    exact (sound_program hprogram hi₀).congr rfl
  · intro k i hk
    rw [getElem?_placeFrom] at hk
    obtain ⟨i₀, -, rfl⟩ := Option.map_eq_some_iff.1 hk
    rw [take_placeFrom, totalWords_placeFrom, Nat.zero_add]
  · rw [← map_fst_lineLabels Op 0 lines, ← hlabels]
    unfold labelAddresses
    rw [List.map_flatMap]
    simp [Function.comp_def]
  · intro i hi l hl
    obtain ⟨i₀, -, address, hi₀⟩ := mem_placeFrom hi
    have ha : i.address = some (i.address.getD 0) := by rw [hi₀]; rfl
    rw [ha, hget]
    exact ⟨l, List.mem_flatMap.2 ⟨i, hi, List.mem_map.2 ⟨l, hl, rfl⟩⟩, rfl⟩
  · intro name target
    rw [hget, hlabels]
    simp only [mem_lineLabels, Nat.zero_add]
    constructor
    · rintro ⟨label, ⟨n, l, hl, hmem, ht⟩, hname⟩
      exact ⟨n, l, label, hl, hmem, hname, ht⟩
    · rintro ⟨n, l, label, hl, hmem, hname, ht⟩
      exact ⟨label, ⟨n, l, hl, hmem, ht⟩, hname⟩

theorem laidOut_of_parseRows {rows : List SourceRow} {p : List (Instruction Op)}
    {table : Std.HashMap String ℕ} (h : parseRows rows = .ok (p, table)) :
    ∃ lines, rows.mapM (SourceLine.ofRow (dialect Op)) = .ok lines ∧ LaidOut lines table.get? p := by
  obtain ⟨lines, program, hlines, hprogram, htable, rfl⟩ := parseRows_eq_ok.1 h
  exact ⟨lines, hlines, laidOut_place hprogram htable⟩

/-! ### A source -/

section

variable {source : List Char} {p q : List (Instruction Op)}

theorem parse_false : parse source false = .ok p ↔
    ∃ table, parseRows (SourceRow.ofSource source) = .ok (p, table) := by
  unfold parse
  rw [mapError_eq_ok, bind_eq_ok]
  constructor
  · rintro ⟨⟨p', table⟩, hrows, h⟩
    obtain rfl : p' = p := Except.ok.inj h
    exact ⟨table, hrows⟩
  · rintro ⟨table, hrows⟩
    exact ⟨(p, table), hrows, rfl⟩

theorem parse_true : parse source true = .ok q ↔
    ∃ p table, parseRows (SourceRow.ofSource source) = .ok (p, table) ∧
      p.mapM (Instruction.resolve table.get?) = .ok q := by
  unfold parse
  rw [mapError_eq_ok, bind_eq_ok]
  constructor
  · rintro ⟨⟨p, table⟩, hrows, h⟩
    exact ⟨p, table, hrows, h⟩
  · rintro ⟨p, table, hrows, h⟩
    exact ⟨(p, table), hrows, h⟩

/-- **The program of the second pass** is that of the first one with the numbers of its table. -/
theorem parse_true_of_parseRows {table : Std.HashMap String ℕ}
    (hrows : parseRows (SourceRow.ofSource source) = .ok (p, table)) (hsound : ∀ i ∈ p, i.Sound) :
    parse source true = .ok q ↔ (∀ i ∈ p, i.Defined table.get?) ∧
      (∀ i ∈ p, ∃ code, (i.substitute table.get?).code = .ok code) ∧
      q = p.map (·.substitute table.get?) := by
  have hresolve : p.mapM (Instruction.resolve table.get?) = .ok q ↔ _ :=
    mapM_eq_ok_iff fun i hi i' => resolve_eq_ok (hsound i hi).encoded
  rw [parse_true]
  constructor
  · rintro ⟨p', table', hrows', hq⟩
    obtain ⟨rfl, rfl⟩ := Prod.mk.inj (Except.ok.inj (hrows.symm.trans hrows'))
    obtain ⟨hall, rfl⟩ := hresolve.1 hq
    exact ⟨fun i hi => (hall i hi).1, fun i hi => (hall i hi).2, rfl⟩
  · rintro ⟨hdefined, hcode, rfl⟩
    exact ⟨p, table, hrows, hresolve.2 ⟨fun i hi => ⟨hdefined i hi, hcode i hi⟩, rfl⟩⟩

/-- An assembled program is the placed one of its lines, with numbers in the place of references if
they are replaced. -/
theorem exists_of_parse {resolve : Bool} (h : parse source resolve = .ok p) : ∃ lines program table,
    (SourceRow.ofSource source).mapM (SourceLine.ofRow (dialect Op)) = .ok lines ∧
    (Outline.ofLines lines).program (SourceRow.ofSource source).length = .ok program ∧
    labelTable (labelAddresses (place program)) = .ok table ∧
    p = if resolve then (place program).map (·.substitute table.get?) else place program := by
  cases resolve with
  | false =>
    obtain ⟨table, hrows⟩ := parse_false.1 h
    obtain ⟨lines, program, hlines, hprogram, htable, rfl⟩ := parseRows_eq_ok.1 hrows
    exact ⟨lines, program, table, hlines, hprogram, htable, rfl⟩
  | true =>
    obtain ⟨placed, table, hrows, -⟩ := parse_true.1 h
    obtain ⟨lines, program, hlines, hprogram, htable, rfl⟩ := parseRows_eq_ok.1 hrows
    obtain ⟨-, -, rfl⟩ := (parse_true_of_parseRows hrows (laidOut_place hprogram htable).sound).1 h
    exact ⟨lines, program, table, hlines, hprogram, htable, rfl⟩

/-- **What an assembled program looks like**: every instruction stands behind the words of those
before it, and has a form that takes its arguments. -/
theorem address_of_parse [Lawful Op] (h : parse source true = .ok q) {k : ℕ} (hk : q[k]? = some i) :
    i.address = some (totalWords (q.take k)) ∧
      ∀ op args, i.body = .operation op args → accepts op args = true := by
  obtain ⟨p, table, hrows, -⟩ := parse_true.1 h
  obtain ⟨lines, -, hlaid⟩ := laidOut_of_parseRows hrows
  obtain ⟨-, -, rfl⟩ := (parse_true_of_parseRows hrows hlaid.sound).1 h
  rw [List.getElem?_map] at hk
  obtain ⟨i₀, hi₀, rfl⟩ := Option.map_eq_some_iff.1 hk
  have htotal : ∀ p : List (Instruction Op), totalWords (p.map (·.substitute table.get?)) = totalWords p := by
    intro p
    induction p with
    | nil => rfl
    | cons i p ih => rw [List.map_cons, totalWords_cons, totalWords_cons, wordCount_substitute, ih]
  refine ⟨?_, fun op args => accepted_substitute (hlaid.sound i₀ (List.mem_of_getElem? hi₀))⟩
  rw [← List.map_take, htotal]
  exact hlaid.address k i₀ hi₀

/-- The second pass is reached only when the first one succeeds. -/
theorem parse_error {e : ParseError}
    (h : parse source false = (.error e : Except ParseError (List (Instruction Op)))) :
    parse source true = (.error e : Except ParseError (List (Instruction Op))) := by
  unfold parse at h ⊢
  obtain ⟨e', he, rfl⟩ := mapError_eq_error.1 h
  rcases hrows : (parseRows (SourceRow.ofSource source) :
      Except ParseError (List (Instruction Op) × Std.HashMap String ℕ)) with d | ⟨p, table⟩
  · rw [hrows] at he
    obtain rfl : d = e' := Except.error.inj he
    simp only [hrows]
    rfl
  · rw [hrows] at he
    exact absurd (show Except.ok p = .error e' from he) (by simp)

end

/-- **The second pass substitutes what the first one found.** For every source text: it fails as
the first one fails. Where the first one succeeds there are lines and a table of labels by which
its program is laid out, and the second one succeeds exactly when every reference is to a label
of the table and every instruction can be encoded with the numbers in the place of the
references; its program is the one with these numbers, and has no references. In data a label
stands for its address. -/
theorem parse_passes (a : Architecture) (source : List Char) :
    (∀ e, parse source false = (.error e : Except ParseError (List (Instruction a.Op))) →
      parse source true = (.error e : Except ParseError (List (Instruction a.Op)))) ∧
    ∀ p : List (Instruction a.Op), parse source false = .ok p →
      ∃ lines table, (SourceRow.ofSource source).mapM (SourceLine.ofRow (dialect a.Op)) = .ok lines ∧
        LaidOut lines table p ∧
        (∀ q, parse source true = .ok q ↔
          (∀ i ∈ p, i.Defined table) ∧ (∀ i ∈ p, ∃ code, (i.substitute table).code = .ok code) ∧
            q = p.map (·.substitute table)) ∧
        (∀ i ∈ p, ∀ arg ∈ (i.substitute table).body.args, (dialect a.Op).isReference arg = false) ∧
        ∀ values target address, target < 2 ^ 63 →
          (Body.data values : Body a.Op).labelValue target address = target := by
  refine ⟨fun e => parse_error, fun p hp => ?_⟩
  obtain ⟨table, hrows⟩ := parse_false.1 hp
  obtain ⟨lines, hlines, hlaid⟩ := laidOut_of_parseRows hrows
  exact ⟨lines, table.get?, hlines, hlaid, fun q => parse_true_of_parseRows hrows hlaid.sound,
    fun i _ arg => not_isReference_substitute, fun values target address => labelValue_data values address⟩

/-- A label that is defined twice, and a forward reference over a remark. -/
theorem parse_passes_forward :
    (∃ e, parse "a:\na: out".toList false =
        (.error e : Except ParseError (List (Instruction Architecture.tally.Op))) ∧
      parse "a:\na: out".toList true =
        (.error e : Except ParseError (List (Instruction Architecture.tally.Op)))) ∧
    ∃ p : List (Instruction Architecture.tally.Op),
      parse "bnz &b\n; go\n\nb: .word &b, 3\n".toList false = .ok p ∧
      ∃ lines table, (SourceRow.ofSource "bnz &b\n; go\n\nb: .word &b, 3\n".toList).mapM
          (SourceLine.ofRow (dialect Architecture.tally.Op)) = .ok lines ∧
        LaidOut lines table p ∧
        (∀ q, parse "bnz &b\n; go\n\nb: .word &b, 3\n".toList true = .ok q ↔
          (∀ i ∈ p, i.Defined table) ∧ (∀ i ∈ p, ∃ code, (i.substitute table).code = .ok code) ∧
            q = p.map (·.substitute table)) ∧
        (∀ i ∈ p, ∀ arg ∈ (i.substitute table).body.args,
          (dialect Architecture.tally.Op).isReference arg = false) ∧
        ∀ values target address, target < 2 ^ 63 →
          (Body.data values : Body Architecture.tally.Op).labelValue target address = target := by
  have herror : parse "a:\na: out".toList false =
      (.error { fault := .duplicateLabel "a", line := 2, span := some ⟨3, 6⟩ } :
        Except ParseError (List (Instruction Architecture.tally.Op))) := by cbv
  have hok : parse "bnz &b\n; go\n\nb: .word &b, 3\n".toList false =
      (.ok [{ body := .operation Tally.Op.bnz ["&b"], line := 1, address := some 0 },
        { body := .remark, comment := some "go", line := 4, address := some 1 },
        { body := .data ["&b", "3"], labels := [⟨"b", 4⟩], line := 4, address := some 1 }] :
        Except ParseError (List (Instruction Architecture.tally.Op))) := by cbv
  exact ⟨⟨_, herror, (parse_passes .tally _).1 _ herror⟩, _, hok, (parse_passes .tally _).2 _ hok⟩

end TinyIsa
