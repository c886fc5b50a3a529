import Mathlib
import TinyIsa.Proofs.Refusal
import TinyIsa.Proofs.Source.Code
import TinyIsa.Proofs.Source.Resolve

/-!
# The faults of a source

A source has a list of faults, kind by kind: labels that are not well formed, instructions that
are refused, names that are defined again, and, where references are replaced, references
without a definition and numbers that do not fit. Each kind is listed in the order of the lines.

* `SourceLine.malformed`, `SourceLine.rejection`, `repeated`, `unresolved`: the faults of a kind.
* `faults`, `sourceFaults`: all of them; `faults_agrees`: lines that agree have the same ones.
* `refusal_rows`, `refusal_outline`, `refusal_labelTable`, `refusal_resolve`: what each pass reports.
* `parse_reports`: **a source is refused with the first of its faults**, and assembled when it
  has none.
-/

namespace TinyIsa

open InstructionSet

variable {Op : Type}

/-! ### Kinds of faults -/

/-- The labels of a line that are not well formed. -/
def SourceLine.malformed (d : Dialect) (l : SourceLine) : List ParseError :=
  l.labels.filterMap fun label =>
    (labelFault d label.name.toList).map fun fault => { fault, line := l.number }

/-- The definitions of names that are defined already, given the names seen before. -/
def repeated (seen : List String) : List Label → List ParseError
  | [] => []
  | l :: labels =>
    (if l.name ∈ seen then [{ fault := .duplicateLabel l.name, line := l.line }] else []) ++
      repeated (l.name :: seen) labels

/-- The address of the first label of a program with a name. -/
def addressOf (p : List (Instruction Op)) (name : String) : Option ℕ :=
  ((labelAddresses p).map fun x => (x.1.name, x.2)).lookup name

variable [InstructionSet Op]

variable (Op) in
/-- The reason for which the instruction of a line is refused. -/
def SourceLine.rejection (l : SourceLine) : Option ParseError :=
  if l.body.isEmpty then none
  else (refusal (Instruction.ofText l.body : Except InstructionError (Instruction Op))).map fun e =>
    { fault := .instruction e, line := l.number }

/-- Whether an argument refers to a label that is not defined. -/
def isDangling (Op : Type) [InstructionSet Op] (table : String → Option ℕ) (arg : String) : Bool :=
  (dialect Op).isReference arg && (table (Dialect.referent arg)).isNone

/-- What keeps an instruction from being resolved: its first reference without a definition, or
without one the reason for which it cannot be encoded with numbers in the place of references. -/
def Instruction.fault? (table : String → Option ℕ) (i : Instruction Op) : Option Fault :=
  match i.body.args.find? (isDangling Op table) with
  | some arg => some (.undefinedLabel (Dialect.referent arg))
  | none => (refusal (i.substitute table).code).map .instruction

/-- The instructions that cannot be resolved with the addresses of the labels. -/
def unresolved (p : List (Instruction Op)) : List ParseError :=
  p.filterMap fun i => (i.fault? (addressOf p)).map fun fault => { fault, line := i.line }

variable (Op) in
/-- **The faults of some lines**, kind by kind. -/
def faults (resolve : Bool) (lines : List SourceLine) : List ParseError :=
  lines.flatMap (SourceLine.malformed (dialect Op)) ++
    (lines.filterMap (SourceLine.rejection Op) ++
      (repeated [] (lines.flatMap SourceLine.labels) ++
        if resolve then unresolved (entriesFrom Op 0 lines) else []))

variable (Op) in
/-- The faults of a source, each with its place. -/
def sourceFaults (resolve : Bool) (source : List Char) : List ParseError :=
  (faults Op resolve (codeLines (dialect Op) (SourceRow.ofSource source))).map
    (ParseError.locate (SourceRow.ofSource source))

/-! ### Lines -/

/-- **A row is refused** with the first of its labels that is not well formed. -/
theorem refusal_ofRow (d : Dialect) (row : SourceRow) :
    refusal (SourceLine.ofRow d row) = ((row.line d).malformed d).head? := by
  have hhead : ∀ names : List (List Char), ((names.map fun name => (⟨String.ofList name, row.number⟩ : Label)).filterMap
      fun label => (labelFault d label.name.toList).map fun fault =>
        ({ fault, line := row.number } : ParseError)).head? =
      (names.findSome? (labelFault d)).map fun fault => { fault, line := row.number } := by
    intro names
    rw [List.filterMap_map, List.head?_filterMap, List.map_findSome?]
    refine congrArg (List.findSome? · names) (funext fun name => ?_)
    simp
  unfold SourceLine.ofRow SourceLine.malformed SourceRow.line SourceLine.ofCode
  rw [hhead]
  rcases splitLabels d.separator (SourceLine.codeText d row.text) with ⟨names, body⟩
  simp only
  cases names.findSome? (labelFault d) <;> rfl

theorem refusal_rows (d : Dialect) (rows : List SourceRow) :
    refusal (rows.mapM (SourceLine.ofRow d)) = ((codeLines d rows).flatMap (SourceLine.malformed d)).head? := by
  have hempty : ∀ number, (SourceLine.ofCode d (number, [])).malformed d = [] := by
    intro number
    rw [ofCode_nil]
    rfl
  rw [flatMap_codeLines hempty, refusal_mapM, List.flatMap_map, List.head?_flatMap]
  exact congrArg (List.findSome? · rows) (funext fun row => refusal_ofRow d row)

/-! ### Instructions -/

theorem refusal_section (s : Section) : refusal (s.program : Except ParseError (List (Instruction Op))) =
    (refusal (Instruction.ofText s.line.body : Except InstructionError (Instruction Op))).map fun e =>
      { fault := .instruction e, line := s.line.number } := by
  unfold Section.program
  rw [refusal_bind_pure, refusal_mapError]

/-- **Some lines are refused** with the first instruction that cannot be read. -/
theorem refusal_outline (lines : List SourceLine) (last : ℕ) :
    refusal ((Outline.ofLines lines).program last : Except ParseError (List (Instruction Op))) =
      (lines.filterMap (SourceLine.rejection Op)).head? := by
  unfold Outline.program
  rw [refusal_bind_pure, refusal_mapM, List.head?_filterMap]
  induction lines with
  | nil => rfl
  | cons l lines ih =>
    have hsections : (Outline.ofLines (l :: lines)) = Outline.cons l (Outline.ofLines lines) := rfl
    rw [List.findSome?_cons, ← ih, hsections]
    unfold SourceLine.rejection Outline.cons
    by_cases hb : l.body.isEmpty = true
    · -- a line without an instruction changes nothing of the sections but what leads up to one
      rw [if_pos hb, if_pos hb]
      cases (Outline.ofLines lines).sections with
      | nil => rfl
      | cons s rest =>
        rw [List.findSome?_cons, List.findSome?_cons, refusal_section, refusal_section]
    · rw [if_neg hb, if_neg hb, List.findSome?_cons, refusal_section]

/-! ### Labels -/

/-- **The table is refused** with the first label whose name has one already. -/
theorem refusal_labelTable (labels : List (Label × ℕ)) :
    refusal (labelTable labels) = (repeated [] (labels.map Prod.fst)).head? := by
  have key : ∀ (labels : List (Label × ℕ)) (start : Std.HashMap String ℕ) (seen : List String),
      (∀ name, start.contains name = true ↔ name ∈ seen) →
        refusal (labels.foldlM insertLabel start) = (repeated seen (labels.map Prod.fst)).head? := by
    intro labels
    induction labels with
    | nil => exact fun _ _ _ => rfl
    | cons x labels ih =>
      intro start seen hseen
      rw [List.foldlM_cons, List.map_cons, repeated]
      unfold insertLabel
      by_cases hc : start.contains x.1.name = true
      · rw [if_pos hc, if_pos ((hseen _).1 hc)]
        rfl
      · rw [if_neg hc, if_neg fun hmem => hc ((hseen _).2 hmem), List.nil_append]
        refine ih _ _ fun name => ?_
        rw [Std.HashMap.contains_insert, Bool.or_eq_true, hseen, List.mem_cons, beq_iff_eq]
        exact or_congr_left eq_comm
  rw [labelTable_eq]
  exact key labels ∅ [] fun name => by simp

omit [InstructionSet Op] in
/-- The table has the first address of each name, since no name has two. -/
theorem get?_labelTable {p : List (Instruction Op)} {table : Std.HashMap String ℕ}
    (h : labelTable (labelAddresses p) = .ok table) : table.get? = addressOf p := by
  have hget := labelTable_eq_ok h
  funext name
  unfold addressOf
  cases hlookup : ((labelAddresses p).map fun x => (x.1.name, x.2)).lookup name with
  | none =>
    rw [List.lookup_eq_none_iff] at hlookup
    refine Option.eq_none_iff_forall_ne_some.2 fun target ht => ?_
    obtain ⟨l, hl, hname⟩ := (hget name target).1 ht
    have hne := hlookup _ (List.mem_map_of_mem hl)
    exact absurd hname.symm (by simpa using hne)
  | some target =>
    obtain ⟨before, after, hsplit, -⟩ := List.lookup_eq_some_iff.1 hlookup
    have hmem : (name, target) ∈ (labelAddresses p).map fun x => (x.1.name, x.2) := by
      rw [hsplit]
      exact List.mem_append_right _ List.mem_cons_self
    obtain ⟨x, hx, he⟩ := List.mem_map.1 hmem
    obtain ⟨hname, rfl⟩ := Prod.mk.inj he
    exact (hget name x.2).2 ⟨x.1, hx, hname⟩

/-! ### References -/

theorem refusal_resolveArg (table : String → Option ℕ) (i : Instruction Op) (arg : String) :
    refusal (i.resolveArg table arg) = if isDangling Op table arg then
      some { fault := .undefinedLabel (Dialect.referent arg), line := i.line } else none := by
  unfold Instruction.resolveArg isDangling
  by_cases h : (dialect Op).isReference arg = true
  · rw [if_pos h, h, Bool.true_and]
    cases ht : table (Dialect.referent arg) <;> simp only [ht] <;> rfl
  · rw [if_neg h, eq_false_of_ne_true h]
    rfl

/-- **An instruction is refused** with its first reference that dangles, or else with the number that
does not fit. -/
theorem refusal_resolve (table : String → Option ℕ) {i : Instruction Op} (hi : ∃ code, i.code = .ok code) :
    refusal (i.resolve table) = (i.fault? table).map fun fault => { fault, line := i.line } := by
  have hargs : refusal (i.body.args.mapM (i.resolveArg table)) =
      (i.body.args.find? (isDangling Op table)).map fun arg =>
        { fault := .undefinedLabel (Dialect.referent arg), line := i.line } := by
    rw [refusal_mapM, List.find?_eq_findSome?_guard, List.map_findSome?]
    refine congrArg (List.findSome? · i.body.args) (funext fun arg => ?_)
    rw [refusal_resolveArg]
    cases hdangling : isDangling Op table arg <;> simp [Option.guard, hdangling]
  unfold Instruction.fault?
  cases hfind : i.body.args.find? (isDangling Op table) with
  | some arg =>
    rw [hfind, Option.map_some, refusal_eq_some] at hargs
    unfold Instruction.resolve
    rw [hargs]
    rfl
  | none =>
    rw [hfind, Option.map_none, refusal_eq_none] at hargs
    obtain ⟨args, hmap⟩ := hargs
    obtain ⟨-, rfl⟩ := (mapM_eq_ok_iff fun arg _ arg' => resolveArg_eq_ok).1 hmap
    unfold Instruction.resolve
    rw [hmap]
    change refusal (do
      if i.body.args.any (dialect Op).isReference then
        discard <| (i.substitute table).code.mapError fun e =>
          ({ fault := .instruction e, line := i.line } : ParseError)
      return i.substitute table) = _
    by_cases h : i.body.args.any (dialect Op).isReference = true
    · rw [if_pos h]
      cases (i.substitute table).code <;> rfl
    · -- what has no reference was encoded when it was read
      obtain ⟨code, hcode⟩ := hi
      rw [if_neg h, substitute_of_not_any h, hcode]
      rfl

theorem Instruction.fault?_of_idle (table : String → Option ℕ) {i : Instruction Op} (h : i.isIdle = true) :
    i.fault? table = none := by
  unfold Instruction.fault? Instruction.code Instruction.substitute
  rw [(Instruction.of_isIdle h).1]
  rfl

omit [InstructionSet Op] in
theorem addressOf_entries (p : List (Instruction Op)) : addressOf (p.filter (!·.isIdle)) = addressOf p := by
  unfold addressOf
  rw [labelAddresses_entries]

theorem unresolved_entries (p : List (Instruction Op)) : unresolved (p.filter (!·.isIdle)) = unresolved p := by
  unfold unresolved
  rw [addressOf_entries, List.filterMap_eq_flatMap_toList, List.filterMap_eq_flatMap_toList]
  refine flatMap_entries (fun i hi => ?_) p
  rw [Instruction.fault?_of_idle _ hi]
  rfl

/-! ### Agreement -/

section

variable {ρ : ℕ → ℕ → Prop} {lines lines' : List SourceLine} {p q : List (Instruction Op)}

/-- The same fault, on lines that correspond. -/
structure ParseError.Agrees (ρ : ℕ → ℕ → Prop) (e e' : ParseError) : Prop where
  fault : e.fault = e'.fault
  line : ρ e.line e'.line
  span : e.span = e'.span

theorem map_fault_agrees {β : Type} (o : Option β) (fault : β → Fault) {n n' : ℕ} (h : ρ n n') :
    Option.Rel (ParseError.Agrees ρ) (o.map fun b => { fault := fault b, line := n })
      (o.map fun b => { fault := fault b, line := n' }) := by
  cases o with
  | none => exact .none
  | some b => exact .some ⟨rfl, h, rfl⟩

theorem malformed_agrees (d : Dialect) {l l' : SourceLine} (h : l.Agrees ρ l') :
    List.Forall₂ (ParseError.Agrees ρ) (l.malformed d) (l'.malformed d) := by
  refine List.rel_filterMap (fun label label' hlabel => ?_) h.labels
  rw [hlabel.1]
  exact map_fault_agrees _ id h.number

theorem rejected_agrees (h : List.Forall₂ (SourceLine.Agrees ρ) lines lines') :
    List.Forall₂ (ParseError.Agrees ρ) (lines.filterMap (SourceLine.rejection Op))
      (lines'.filterMap (SourceLine.rejection Op)) := by
  refine List.rel_filterMap (fun l l' hl => ?_) h
  unfold SourceLine.rejection
  rw [hl.body]
  split
  · exact .none
  · exact map_fault_agrees _ .instruction hl.number

omit [InstructionSet Op] in
theorem repeated_agrees {labels labels' : List Label} (h : List.Forall₂ (Label.Agrees ρ) labels labels')
    (seen : List String) :
    List.Forall₂ (ParseError.Agrees ρ) (repeated seen labels) (repeated seen labels') := by
  induction h generalizing seen with
  | nil => exact .nil
  | cons hl _ ih =>
    unfold repeated
    rw [hl.1]
    refine List.rel_append ?_ (ih _)
    split
    · exact .cons ⟨rfl, hl.2, rfl⟩ .nil
    · exact .nil

theorem substitute_agrees {i i' : Instruction Op} (h : i.Agrees ρ i') (table : String → Option ℕ) :
    (i.substitute table).Agrees ρ (i'.substitute table) := by
  have harg : i.substituteArg table = i'.substituteArg table := by
    unfold Instruction.substituteArg
    rw [h.body, h.address]
  refine ⟨?_, h.labels, h.line, h.address⟩
  unfold Instruction.substitute
  rw [harg, h.body]

omit [InstructionSet Op] in
theorem addressOf_agrees (h : List.Forall₂ (Instruction.Agrees ρ) p q) : addressOf p = addressOf q := by
  unfold addressOf
  rw [addresses_agrees h]

theorem unresolved_agrees (h : List.Forall₂ (Instruction.Agrees ρ) p q) :
    List.Forall₂ (ParseError.Agrees ρ) (unresolved p) (unresolved q) := by
  unfold unresolved
  rw [addressOf_agrees h]
  refine List.rel_filterMap (fun i i' hi => ?_) h
  have hfault : i.fault? (addressOf q) = i'.fault? (addressOf q) := by
    unfold Instruction.fault? Instruction.code
    rw [hi.body, (substitute_agrees hi _).body]
  rw [hfault]
  exact map_fault_agrees _ id hi.line

variable (Op) in
/-- **Lines that agree have the same faults**, on lines that correspond. -/
theorem faults_agrees (resolve : Bool) (h : List.Forall₂ (SourceLine.Agrees ρ) lines lines') :
    List.Forall₂ (ParseError.Agrees ρ) (faults Op resolve lines) (faults Op resolve lines') := by
  have hlabels : List.Forall₂ (Label.Agrees ρ) (lines.flatMap SourceLine.labels)
      (lines'.flatMap SourceLine.labels) := List.rel_flatMap h fun _ _ hl => hl.labels
  refine List.rel_append ?_ (List.rel_append (rejected_agrees h) (List.rel_append ?_ ?_))
  · exact List.rel_flatMap h fun _ _ hl => malformed_agrees _ hl
  · exact repeated_agrees hlabels []
  · split
    · exact unresolved_agrees (entriesFrom_agrees Op h 0)
    · exact .nil

/-- On the same lines the faults are the same. -/
theorem eq_of_agrees {es es' : List ParseError} (h : List.Forall₂ (ParseError.Agrees Eq) es es') : es = es' := by
  refine List.forall₂_eq_eq_eq ▸ h.imp fun e e' he => ?_
  cases e
  cases e'
  obtain ⟨rfl, rfl, rfl⟩ := he
  rfl

end

/-! ### A source -/

section

variable {rows : List SourceRow} {lines : List SourceLine}

theorem rejected_codeLines (h : rows.mapM (SourceLine.ofRow (dialect Op)) = .ok lines) :
    lines.filterMap (SourceLine.rejection Op) =
      (codeLines (dialect Op) rows).filterMap (SourceLine.rejection Op) := by
  have hempty : ∀ number, ((SourceLine.ofCode (dialect Op) (number, [])).rejection Op).toList = [] := by
    intro number
    rw [ofCode_nil]
    rfl
  rw [eq_of_agrees (rejected_agrees (agrees_of_mapM h)), List.filterMap_eq_flatMap_toList,
    List.filterMap_eq_flatMap_toList, flatMap_codeLines hempty]

omit [InstructionSet Op] in
theorem labels_codeLines {d : Dialect} (h : rows.mapM (SourceLine.ofRow d) = .ok lines) :
    lines.flatMap SourceLine.labels = (codeLines d rows).flatMap SourceLine.labels := by
  have hempty : ∀ number, (SourceLine.ofCode d (number, [])).labels = [] := by
    intro number
    rw [ofCode_nil]
  have hlabels : List.Forall₂ (Label.Agrees Eq) (lines.flatMap SourceLine.labels)
      ((rows.map (SourceRow.line d)).flatMap SourceLine.labels) :=
    List.rel_flatMap (agrees_of_mapM h) fun _ _ hl => hl.labels
  rw [flatMap_codeLines hempty]
  refine List.forall₂_eq_eq_eq ▸ hlabels.imp fun l l' hl => ?_
  cases l
  cases l'
  obtain ⟨rfl, rfl⟩ := hl
  rfl

/-- The entries that are resolved are those of the code. -/
theorem unresolved_codeLines (h : rows.mapM (SourceLine.ofRow (dialect Op)) = .ok lines) {last : ℕ}
    {program : List (Instruction Op)} (hprogram : (Outline.ofLines lines).program last = .ok program) :
    unresolved (place program) = unresolved (entriesFrom Op 0 (codeLines (dialect Op) rows)) := by
  rw [← unresolved_entries]
  exact eq_of_agrees (unresolved_agrees (entries_codeLines h hprogram))

/-- **The first pass** reports what is wrong with the labels and the instructions. -/
theorem refusal_parseRows (rows : List SourceRow) :
    refusal (parseRows rows : Except ParseError (List (Instruction Op) × Std.HashMap String ℕ)) =
      ((codeLines (dialect Op) rows).flatMap (SourceLine.malformed (dialect Op))).head?.or
        (((codeLines (dialect Op) rows).filterMap (SourceLine.rejection Op)).head?.or
          (repeated [] ((codeLines (dialect Op) rows).flatMap SourceLine.labels)).head?) := by
  unfold parseRows
  rw [← refusal_rows]
  refine refusal_bind fun lines hlines => ?_
  rw [← rejected_codeLines hlines, ← refusal_outline lines rows.length]
  refine refusal_bind fun program hprogram => ?_
  have hlabels : (labelAddresses (place program)).map Prod.fst = lines.flatMap SourceLine.labels := by
    rw [place_eq, labelAddresses_program hprogram, map_fst_lineLabels]
  rw [refusal_bind_pure, refusal_labelTable, hlabels, labels_codeLines hlines]

variable (Op) in
theorem refusal_parse (source : List Char) (resolve : Bool) :
    refusal (parse source resolve : Except ParseError (List (Instruction Op))) =
      (sourceFaults Op resolve source).head? := by
  unfold parse sourceFaults faults
  rw [List.head?_map, refusal_mapError, List.head?_append, List.head?_append, List.head?_append]
  have hassoc : ∀ o₁ o₂ o₃ o₄ : Option ParseError, o₁.or (o₂.or (o₃.or o₄)) = (o₁.or (o₂.or o₃)).or o₄ := by
    intro o₁ o₂ o₃ o₄
    rw [Option.or_assoc, Option.or_assoc]
  rw [hassoc, ← refusal_parseRows]
  refine congrArg (Option.map _) (refusal_bind fun x hx => ?_)
  obtain ⟨p, table⟩ := x
  obtain ⟨lines, program, hlines, hprogram, htable, rfl⟩ := parseRows_eq_ok.1 hx
  cases resolve with
  | false => rfl
  | true =>
    change refusal ((place program).mapM (Instruction.resolve table.get?)) = _
    rw [if_pos rfl, ← unresolved_codeLines hlines hprogram, refusal_mapM, get?_labelTable htable]
    unfold unresolved
    rw [← List.head?_filterMap]
    refine congrArg List.head? (List.filterMap_congr fun i hi => ?_)
    exact refusal_resolve _ ((laidOut_place hprogram htable).sound i hi).encoded

end

/-- **A source is refused with the first of its faults.** Labels that are not well formed come first,
then instructions that are refused, then names that are defined again, whether references are replaced
or not. Only where they are, the instructions follow that refer to a label without a definition or do not
fit with its number. A source without faults is assembled. -/
theorem parse_reports (a : Architecture) (source : List Char) (resolve : Bool) :
    (∀ e, parse source resolve = (.error e : Except ParseError (List (Instruction a.Op))) ↔
      (sourceFaults a.Op resolve source).head? = some e) ∧
    ((∃ p : List (Instruction a.Op), parse source resolve = .ok p) ↔ sourceFaults a.Op resolve source = []) := by
  have hrefusal := refusal_parse a.Op source resolve
  refine ⟨fun e => ?_, ?_⟩
  · rw [← hrefusal, refusal_eq_some]
  · rw [← refusal_eq_none, hrefusal, List.head?_eq_none_iff]

/-- The faults of a source whose first line has the last one. -/
example : (sourceFaults Architecture.tally.Op true "bnz &q\na: jump\na: out\n9: out".toList).map
    (fun e => (e.line, e.fault.code)) = [(4, "parse::invalid_label"), (2, "parse::instruction"),
      (3, "parse::duplicate_label"), (1, "parse::undefined_label")] := by cbv

end TinyIsa
