import Mathlib
import TinyIsa.Proofs.Source.Outline

/-!
# The skeleton of a program

What is left of a program without its comments and without the numbers of its lines. Addresses,
labels and digits see a program only through its skeleton.

* `skeleton`: the entries that put words into memory or name an address.
* `filter_skeleton`, `labelAddresses_skeleton`, `machineCode_skeleton`: what a skeleton keeps.
* `skeleton_cons_congr`: an entry sees the rest of a program only through its skeleton.
* `labelTable_congr`: the table of labels does not depend on their lines.
* `skeleton_cons_comment`, `program_cons_code`: **one more line in front of an outline**, without an
  instruction and labels, and with an instruction.
-/

namespace TinyIsa

variable {Op : Type}

/-- A label without the number of its line. -/
def Label.unlined (l : Label) : Label := { l with line := 0 }

theorem map_unlined_congr {labels labels' : List Label}
    (h : labels.map Label.name = labels'.map Label.name) :
    labels.map Label.unlined = labels'.map Label.unlined := by
  have hname : Label.unlined = (fun name => (⟨name, 0⟩ : Label)) ∘ Label.name := rfl
  rw [hname, ← List.map_map, ← List.map_map, h]

theorem Body.isRemark_iff {b : Body Op} : b.isRemark = true ↔ b = .remark := by
  cases b <;> simp [Body.isRemark]

namespace Instruction

/-- An entry without the numbers of lines. -/
def unlined (i : Instruction Op) : Instruction Op :=
  { i with labels := i.labels.map Label.unlined, line := 0 }

/-- A remark that names no address. -/
def isIdle (i : Instruction Op) : Bool := i.body.isRemark && i.labels.isEmpty

theorem isIdle_of_remark {i : Instruction Op} (hb : i.body = .remark) (hl : i.labels = []) :
    i.isIdle = true := by
  unfold isIdle
  rw [hb, hl]
  rfl

theorem of_isIdle {i : Instruction Op} (h : i.isIdle = true) : i.body = .remark ∧ i.labels = [] := by
  obtain ⟨hremark, hlabels⟩ := Bool.and_eq_true_iff.1 h
  exact ⟨Body.isRemark_iff.1 hremark, List.isEmpty_iff.1 hlabels⟩

theorem not_isIdle_of_code {i : Instruction Op} (h : i.body.isRemark = false) : i.isIdle = false := by
  unfold isIdle
  rw [h, Bool.false_and]

theorem not_isIdle_of_labels {i : Instruction Op} (h : i.labels ≠ []) : i.isIdle = false := by
  unfold isIdle
  rw [List.isEmpty_eq_false_iff.2 h, Bool.and_false]

end Instruction

/-- The entries that put words into memory or name an address, without the numbers of lines. -/
def skeleton (p : List (Instruction Op)) : List (Instruction Op) :=
  (p.filter (!·.isIdle)).map Instruction.unlined

theorem skeleton_cons_of_idle {i : Instruction Op} (h : i.isIdle = true) (p : List (Instruction Op)) :
    skeleton (i :: p) = skeleton p := by
  unfold skeleton
  rw [List.filter_cons_of_neg (by simp [h])]

theorem skeleton_cons {i : Instruction Op} (h : i.isIdle = false) (p : List (Instruction Op)) :
    skeleton (i :: p) = i.unlined :: skeleton p := by
  unfold skeleton
  rw [List.filter_cons_of_pos (by simp [h]), List.map_cons]

/-- An entry sees the rest of a program only through its skeleton. -/
theorem skeleton_cons_congr (i : Instruction Op) {p p' : List (Instruction Op)}
    (h : skeleton p = skeleton p') : skeleton (i :: p) = skeleton (i :: p') := by
  cases hi : i.isIdle with
  | true => rw [skeleton_cons_of_idle hi, skeleton_cons_of_idle hi, h]
  | false => rw [skeleton_cons hi, skeleton_cons hi, h]

/-! ### What a skeleton keeps -/

/-- **The entries with words** are those of the skeleton. -/
theorem filter_skeleton (p : List (Instruction Op)) : (skeleton p).filter (!·.body.isRemark) =
    (p.filter (!·.body.isRemark)).map Instruction.unlined := by
  have hkept : ∀ i ∈ p, ((!i.body.isRemark) && !i.isIdle) = !i.body.isRemark := by
    intro i _
    cases hr : i.body.isRemark with
    | false => rw [Instruction.not_isIdle_of_code hr]; rfl
    | true => rfl
  unfold skeleton
  rw [List.filter_map, List.filter_filter]
  exact congrArg (List.map Instruction.unlined) (List.filter_congr hkept)

/-- **The labels with their addresses** are those of the skeleton, but for the lines. -/
theorem labelAddresses_skeleton (p : List (Instruction Op)) : labelAddresses (skeleton p) =
    (labelAddresses p).map fun x => (x.1.unlined, x.2) := by
  have hcons : ∀ (i : Instruction Op) (p : List (Instruction Op)), labelAddresses (i :: p) =
      (i.labels.map fun l => (l, i.address.getD 0)) ++ labelAddresses p := fun _ _ => List.flatMap_cons
  induction p with
  | nil => rfl
  | cons i p ih =>
    rw [hcons, List.map_append, ← ih]
    cases hi : i.isIdle with
    | true =>
      rw [skeleton_cons_of_idle hi, (Instruction.of_isIdle hi).2]
      rfl
    | false =>
      rw [skeleton_cons hi, hcons, List.map_map]
      unfold Instruction.unlined
      rw [List.map_map]
      rfl

/-- Programs with one skeleton have the same names at the same addresses. -/
theorem labelAddresses_congr {p q : List (Instruction Op)} (h : skeleton p = skeleton q) :
    (labelAddresses p).map (fun x => (x.1.name, x.2)) = (labelAddresses q).map fun x => (x.1.name, x.2) := by
  have hnames : ∀ p : List (Instruction Op), (labelAddresses p).map (fun x => (x.1.name, x.2)) =
      (labelAddresses (skeleton p)).map fun x => (x.1.name, x.2) := by
    intro p
    rw [labelAddresses_skeleton, List.map_map]
    rfl
  rw [hnames p, hnames q, h]

/-- Programs with one skeleton have the same arguments. -/
theorem forall_args_of_skeleton {P : String → Prop} {p q : List (Instruction Op)}
    (h : skeleton p = skeleton q) (hq : ∀ i ∈ q, ∀ arg ∈ i.body.args, P arg) :
    ∀ i ∈ p, ∀ arg ∈ i.body.args, P arg := by
  intro i hi arg harg
  have hcode : i.body.isRemark = false := by
    cases hb : i.body with
    | remark => rw [hb] at harg; exact absurd harg List.not_mem_nil
    | operation op args => rfl
    | data values => rfl
  have hmem : i.unlined ∈ skeleton p :=
    List.mem_map_of_mem (List.mem_filter.2 ⟨hi, by rw [Instruction.not_isIdle_of_code hcode]; rfl⟩)
  rw [h] at hmem
  obtain ⟨i', hi', hsame⟩ := List.mem_map.1 hmem
  have hbody : i'.body = i.body := by
    change i'.unlined.body = i.unlined.body
    rw [hsame]
  exact hq i' (List.mem_filter.1 hi').1 arg (hbody ▸ harg)

variable [InstructionSet Op]

theorem machineCode_cons (i : Instruction Op) (p : List (Instruction Op)) : machineCode (i :: p) = (do
    let code ← i.code
    let rest ← machineCode p
    return code ++ rest) := by
  unfold machineCode
  rw [List.mapM_cons]
  cases i.code with
  | error e => rfl
  | ok code => cases p.mapM Instruction.code <;> rfl

/-- **The digits of a program** are those of its skeleton. -/
theorem machineCode_skeleton (p : List (Instruction Op)) : machineCode (skeleton p) = machineCode p := by
  induction p with
  | nil => rfl
  | cons i p ih =>
    rw [machineCode_cons, ← ih]
    cases hi : i.isIdle with
    | true =>
      have hcode : i.code = .ok [] := by
        unfold Instruction.code
        rw [(Instruction.of_isIdle hi).1]
        rfl
      rw [skeleton_cons_of_idle hi, hcode]
      cases machineCode (skeleton p) <;> rfl
    | false =>
      rw [skeleton_cons hi, machineCode_cons]
      rfl

/-- **The table of labels does not depend on their lines.** -/
theorem labelTable_congr {labels labels' : List (Label × ℕ)} {table : Std.HashMap String ℕ}
    (h : labels.map (fun x => (x.1.name, x.2)) = labels'.map fun x => (x.1.name, x.2))
    (ht : labelTable labels = .ok table) : labelTable labels' = .ok table := by
  rw [labelTable_eq] at ht ⊢
  generalize (∅ : Std.HashMap String ℕ) = start at ht ⊢
  induction labels generalizing labels' start with
  | nil =>
    obtain rfl : labels' = [] := List.map_eq_nil_iff.1 h.symm
    exact ht
  | cons x labels ih =>
    rcases labels' with _ | ⟨x', labels'⟩
    · exact absurd h (by simp)
    obtain ⟨hx, hrest⟩ := List.cons.inj h
    obtain ⟨hname, haddress⟩ := Prod.mk.inj hx
    rw [List.foldlM_cons] at ht ⊢
    obtain ⟨next, hnext, ht⟩ := bind_eq_ok.1 ht
    refine bind_eq_ok.2 ⟨next, ?_, ih hrest next ht⟩
    unfold insertLabel at hnext ⊢
    rw [← hname, ← haddress]
    by_cases hc : start.contains x.1.name = true
    · rw [if_pos hc] at hnext
      exact absurd hnext (by simp)
    · rw [if_neg hc] at hnext ⊢
      exact hnext

/-! ### Placed programs -/

/-- Comments take no room and name no address. -/
theorem filter_remarks (a : ℕ) (lead : List SourceLine) (n : ℕ) (p : List (Instruction Op)) :
    (placeFrom a (remarks lead n ++ p)).filter (!·.isIdle) = (placeFrom a p).filter (!·.isIdle) := by
  unfold remarks
  induction remarkTexts lead with
  | nil => rfl
  | cons text texts ih => exact ih

theorem skeleton_remarks (a : ℕ) (lead : List SourceLine) (n : ℕ) (p : List (Instruction Op)) :
    skeleton (placeFrom a (remarks lead n ++ p)) = skeleton (placeFrom a p) :=
  congrArg (List.map Instruction.unlined) (filter_remarks a lead n p)

/-- An instruction in the same place, on another line. -/
theorem skeleton_placeFrom_congr {i i' : Instruction Op} (hb : i.body = i'.body)
    (hl : i.labels.map Label.name = i'.labels.map Label.name) (hc : i.comment = i'.comment)
    (hi : i.isIdle = false) (p : List (Instruction Op)) (a : ℕ) :
    skeleton (placeFrom a (i :: p)) = skeleton (placeFrom a (i' :: p)) := by
  have hempty : i.labels.isEmpty = i'.labels.isEmpty := by
    have hlen := congrArg List.length hl
    rw [List.length_map, List.length_map] at hlen
    rw [Bool.eq_iff_iff, List.isEmpty_iff, List.isEmpty_iff, ← List.length_eq_zero_iff, hlen,
      List.length_eq_zero_iff]
  have hi' : i'.isIdle = false := by
    rw [← hi]
    unfold Instruction.isIdle
    rw [hb, hempty]
  have hwords : i.wordCount = i'.wordCount := by
    unfold Instruction.wordCount
    rw [hb]
  have hentry : ({ i with address := some a } : Instruction Op).unlined =
      ({ i' with address := some a } : Instruction Op).unlined := by
    unfold Instruction.unlined
    rw [map_unlined_congr hl, hb, hc]
  rw [placeFrom, placeFrom, skeleton_cons (show ({ i with address := some a } : Instruction Op).isIdle =
    false from hi), skeleton_cons (show ({ i' with address := some a } : Instruction Op).isIdle = false
    from hi'), hentry, hwords]

/-! ### One more line -/

variable {l : SourceLine} {o : Outline} {last : ℕ} {p : List (Instruction Op)}

/-- **A line with nothing but a comment** in front of an outline leaves the skeleton as it is. -/
theorem skeleton_cons_comment (hb : l.body = []) (hl : l.labels = []) (h : o.program last = .ok p) :
    ∃ p' : List (Instruction Op), (Outline.cons l o).program last = .ok p' ∧
      ∀ a, skeleton (placeFrom a p') = skeleton (placeFrom a p) := by
  obtain ⟨sections, tail⟩ := o
  unfold Outline.cons
  rw [if_pos (by rw [hb]; rfl)]
  cases sections with
  | nil =>
    obtain ⟨entries, he, rfl⟩ := outline_program_eq_ok.1 h
    obtain rfl : [] = entries := Except.ok.inj he
    refine ⟨_, outline_program_eq_ok.2 ⟨[], rfl, rfl⟩, fun a => ?_⟩
    unfold tailProgram
    rw [List.flatten_nil, List.nil_append, List.nil_append, skeleton_remarks, skeleton_remarks,
      List.flatMap_cons, hl, List.nil_append]
  | cons s rest =>
    obtain ⟨e, p₂, he, hp₂, rfl⟩ := outline_program_cons.1 h
    obtain ⟨main, hm, rfl⟩ := section_program_eq_ok.1 he
    have hlead : (l :: s.lead).flatMap SourceLine.labels = s.lead.flatMap SourceLine.labels := by
      rw [List.flatMap_cons, hl, List.nil_append]
    refine ⟨_, outline_program_cons.2 ⟨_, p₂, section_program_eq_ok.2 ⟨main, hm, rfl⟩, hp₂, rfl⟩,
      fun a => ?_⟩
    rw [List.append_assoc, List.append_assoc, skeleton_remarks, skeleton_remarks, hlead]

/-- **A line with an instruction** in front of an outline is an entry of its own. -/
theorem program_cons_code {main : Instruction Op} (hb : l.body ≠ [])
    (hm : Instruction.ofText l.body = .ok main) (h : o.program last = .ok p) :
    (Outline.cons l o).program last =
      .ok ({ main with labels := l.labels, comment := l.comment, line := l.number } :: p) := by
  obtain ⟨sections, tail⟩ := o
  unfold Outline.cons
  rw [if_neg (by simpa using hb)]
  exact outline_program_cons.2 ⟨_, p, section_program_eq_ok.2 ⟨main, hm, rfl⟩, h, rfl⟩

end TinyIsa
