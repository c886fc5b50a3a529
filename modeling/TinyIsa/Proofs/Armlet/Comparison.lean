import Mathlib
import TinyIsa.Proofs.Armlet.Refinement
import TinyIsa.Proofs.Machine.Batch

/-!
# Branches follow the last comparison

Only `cmp` writes the flags, although all registers are written by name. Between two comparisons
the flags are therefore those of the first one, whatever else is executed and whatever becomes of
the memory.

* `Condition.Relates`: the relation that a condition is named after; `holds_compare`: **this is what
  its flags say.**
* `Traced`: some executed instructions in a row, with anything between two of them that leaves the
  registers alone; `exists_traced_run`: a run is one.
* `lastCompared`: the values that were compared last.
* `flags_of_step`, `Traced.followed`: what one step and what a trace do to the flags.
* `branches_follow_comparison`: **the flags are those of the last comparison, and a branch is taken
  when its relation holds of the values that were compared.**
-/

namespace TinyIsa.Armlet

open Machine

/-! ### Conditions -/

/-- The relation of two words that a condition is named after: equality, the order of signed numbers
or the strict order of unsigned ones. -/
def Condition.Relates (x y : Word) : Condition → Prop
  | eq => x.toInt = y.toInt
  | ne => x.toInt ≠ y.toInt
  | lt => x.toInt < y.toInt
  | le => x.toInt ≤ y.toInt
  | gt => y.toInt < x.toInt
  | ge => y.toInt ≤ x.toInt
  | below => x.toNat < y.toNat
  | above => y.toNat < x.toNat

instance (x y : Word) : (c : Condition) → Decidable (c.Relates x y)
  | .eq => inferInstanceAs (Decidable (x.toInt = y.toInt))
  | .ne => inferInstanceAs (Decidable (x.toInt ≠ y.toInt))
  | .lt => inferInstanceAs (Decidable (x.toInt < y.toInt))
  | .le => inferInstanceAs (Decidable (x.toInt ≤ y.toInt))
  | .gt => inferInstanceAs (Decidable (y.toInt < x.toInt))
  | .ge => inferInstanceAs (Decidable (y.toInt ≤ x.toInt))
  | .below => inferInstanceAs (Decidable (x.toNat < y.toNat))
  | .above => inferInstanceAs (Decidable (y.toNat < x.toNat))

/-- **A condition holds of the flags of a comparison** when its relation holds of what was compared. -/
theorem holds_compare {w : ℕ} (x y : BitVec w) (c : Condition) :
    c.holds (compare ⟨w, x⟩ ⟨w, y⟩) = true ↔ c.Relates ⟨w, x⟩ ⟨w, y⟩ := by
  have hbits : ∀ e l u : Bool, (Word.ofBits [e, l, u]).bit 0 = e ∧ (Word.ofBits [e, l, u]).bit 1 = l ∧
      (Word.ofBits [e, l, u]).bit 2 = u := by decide
  obtain ⟨he, hl, hu⟩ := hbits (decide (Word.mk w x = ⟨w, y⟩))
    (decide ((Word.mk w x).toInt < (Word.mk w y).toInt)) (decide ((Word.mk w x).toNat < (Word.mk w y).toNat))
  -- words of one width are the same when their numbers are, signed or not
  have hint : Word.mk w x = ⟨w, y⟩ ↔ (Word.mk w x).toInt = (Word.mk w y).toInt := by
    rw [show (Word.mk w x).toInt = x.toInt from rfl, show (Word.mk w y).toInt = y.toInt from rfl,
      BitVec.toInt_inj]
    simp
  have hnat : Word.mk w x = ⟨w, y⟩ ↔ (Word.mk w x).toNat = (Word.mk w y).toNat := by
    rw [show (Word.mk w x).toNat = x.toNat from rfl, show (Word.mk w y).toNat = y.toNat from rfl,
      BitVec.toNat_inj]
    simp
  unfold Condition.holds compare
  simp only [he, hl, hu]
  cases c with
  | eq => simpa [Condition.Relates] using hint
  | ne => simpa [Condition.Relates] using hint.not
  | lt => simp [Condition.Relates]
  | le => simp [Condition.Relates, hint, le_iff_lt_or_eq]
  | gt => simp [Condition.Relates, hint]; omega
  | ge => simp [Condition.Relates]
  | below => simp [Condition.Relates]
  | above => simp [Condition.Relates, hnat]; omega

/-! ### Traces -/

variable {σ : Type} [Host σ]

/-- Some instructions executed in a row, each on one of the machines. What happens between two of
them, and to the host at any time, leaves the registers alone; memory, program and status may change. -/
inductive Traced (m : Machine Op σ) : List (Machine Op σ) → Machine Op σ → Prop
  | start : Traced m [] m
  | execute {before : List (Machine Op σ)} {last next : Machine Op σ} {outcome : Outcome} :
      Traced m before last → last.step = (.ok outcome, next) → outcome ≠ .refused →
      Traced m (before ++ [last]) next
  | outside {before : List (Machine Op σ)} {last next : Machine Op σ} :
      Traced m before last → next.registers = last.registers → next.WellFormed → Traced m before next

/-- The values that an instruction compares, if it does. -/
def comparands (m : Machine Op σ) : Body Op → Option (Word × Word)
  | .operation (.cmp source) args => some ((perform (read args 0) m).1, (perform (operand args 1 source) m).1)
  | _ => none

/-- The values that the instruction at the program counter compares. -/
def compared (m : Machine Op σ) : Option (Word × Word) :=
  m.peek.toOption.bind fun i => comparands m i.body

theorem compared_of_peek {m : Machine Op σ} {i : Instruction Op} (h : m.peek = .ok i) :
    compared m = comparands m i.body := by
  unfold compared
  rw [h]
  rfl

/-- The values that were compared last. -/
def lastCompared (before : List (Machine Op σ)) : Option (Word × Word) :=
  (before.filterMap compared).getLast?

theorem lastCompared_concat (before : List (Machine Op σ)) (m : Machine Op σ) :
    lastCompared (before ++ [m]) = (compared m).or (lastCompared before) := by
  unfold lastCompared
  rw [List.filterMap_append, List.getLast?_append]
  cases hc : compared m with
  | none => rw [List.filterMap_cons_none hc]; rfl
  | some v => rw [List.filterMap_cons_some hc]; rfl

/-! ### One step -/

namespace State

/-- What the instruction at the program counter compares, in numbers. -/
theorem compared_toMachine (s : State σ) : compared s.toMachine =
    match s.op with
    | .cmp source => some (⟨16, s.read s.a⟩, ⟨16, s.last s.b s.second source⟩)
    | _ => none := by
  have hargs := s.operands_args
  rw [compared_of_peek s.peek_toMachine]
  change comparands s.toMachine (.operation s.op s.args) = _
  generalize s.op = op at hargs
  cases op with
  | cmp source =>
    have h0 := hargs.first (lt_layout_registers source (show 0 < 1 by decide))
    simp only [comparands, perform_read s h0, perform_operand s (k := 1) hargs.second hargs.value]
  | _ => rfl

/-- The flags after a step are those that the instruction leaves. -/
theorem flags_step_eq (s : State σ) : s.step.2.flags = (s.execute s.a s.b s.c s.second s.op).2.flags := by
  unfold step
  rcases s.execute s.a s.b s.c s.second s.op with ⟨target, t⟩
  simp only
  by_cases ht : t.status = .terminated
  · rw [if_pos ht]
  · rw [if_neg ht]

/-- **Only a comparison writes the flags.** -/
theorem flags_step (s : State σ) : some (⟨3, s.step.2.flags⟩ : Word) =
    (compared s.toMachine).elim (some ⟨3, s.flags⟩) fun v => some (compare v.1 v.2) := by
  rw [compared_toMachine]
  by_cases hcmp : ∃ source, s.op = .cmp source
  · obtain ⟨source, hop⟩ := hcmp
    rw [flags_step_eq, hop]
    exact congrArg some (compare_eq _ _).symm
  · have hflags := s.frame_step.1.flags fun source hop => hcmp ⟨source, hop⟩
    rw [hflags]
    generalize s.op = op at hcmp
    cases op with
    | cmp source => exact absurd ⟨source, rfl⟩ hcmp
    | _ => rfl

end State

variable {m last next : Machine Op σ} {before : List (Machine Op σ)}

omit [Host σ] in
/-- The flags of a machine, in numbers. -/
theorem get?_flags (h : m.WellFormed) : m.registers.get? flagsName = some ⟨3, (State.ofMachine m).flags⟩ := by
  have hget := (State.ofMachine m).get?_flags
  rwa [State.registers_ofMachine h] at hget

/-- What an executed instruction compares has the width of a word, and is in the flags afterwards. -/
theorem flags_of_step (h : m.WellFormed) {outcome : Outcome} (hs : m.step = (.ok outcome, next))
    (ho : outcome ≠ .refused) :
    next.registers.get? flagsName =
      (compared m).elim (m.registers.get? flagsName) fun v => some (compare v.1 v.2) := by
  obtain ⟨ht, hl⟩ := ready_of_step hs ho
  have hstep := State.step_toMachine (State.ofMachine m) ht hl
  have hflags := (State.ofMachine m).flags_step
  rw [State.toMachine_ofMachine h] at hstep hflags
  obtain ⟨-, rfl⟩ := Prod.mk.inj (hs.symm.trans hstep)
  rw [get?_flags h]
  exact (State.get?_flags _).trans hflags

theorem width_of_compared (h : m.WellFormed) {x y : Word} (hc : compared m = some (x, y)) :
    x.width = 16 ∧ y.width = 16 := by
  rw [← State.toMachine_ofMachine h, State.compared_toMachine] at hc
  generalize (State.ofMachine m).op = op at hc
  cases op with
  | cmp source =>
    obtain ⟨rfl, rfl⟩ := Prod.mk.inj (Option.some.inj hc)
    exact ⟨rfl, rfl⟩
  | _ => exact absurd hc (by simp)

/-! ### A trace -/

theorem Traced.wellFormed (h : Traced m before last) (hm : m.WellFormed) : last.WellFormed := by
  induction h with
  | start => exact hm
  | execute _ hs _ ih =>
    have hnext := ih.step
    rwa [hs] at hnext
  | outside _ _ hwell _ => exact hwell

/-- The flags are those of the last comparison, or zero before the first one. -/
structure Followed (before : List (Machine Op σ)) (last : Machine Op σ) : Prop where
  flags : last.registers.get? flagsName =
    some ((lastCompared before).elim (Word.zero flagsSize) fun v => compare v.1 v.2)
  /-- What was compared are words of the architecture. -/
  width : ∀ x y, lastCompared before = some (x, y) → x.width = 16 ∧ y.width = 16

/-- **An executed instruction keeps the flags or compares.** -/
theorem Followed.step (h : Followed before last) (hlast : last.WellFormed) {outcome : Outcome}
    (hs : last.step = (.ok outcome, next)) (ho : outcome ≠ .refused) : Followed (before ++ [last]) next where
  flags := by
    rw [flags_of_step hlast hs ho, lastCompared_concat, h.flags]
    cases compared last <;> rfl
  width x y hxy := by
    rw [lastCompared_concat] at hxy
    cases hc : compared last with
    | none => exact h.width x y (by rwa [hc] at hxy)
    | some v => exact width_of_compared hlast (by rwa [hc] at hxy ⊢)

/-- **Along every trace from zeroed registers** the flags are those of the last comparison. -/
theorem Traced.followed (h : Traced m before last) (hm : m.WellFormed)
    (hzero : ∀ r ∈ m.registers.toList, r.value.toNat = 0) : Followed before last := by
  induction h with
  | start =>
    refine ⟨?_, fun x y hxy => absurd hxy (by simp [lastCompared])⟩
    have hget := get?_flags hm
    obtain ⟨r, hr, hvalue⟩ := Option.map_eq_some_iff.1 hget
    have hnat := hzero r (List.mem_of_find?_eq_some hr)
    rw [hvalue] at hnat
    exact hget.trans (congrArg (fun x => some (Word.mk 3 x)) (BitVec.eq_of_toNat_eq hnat))
  | execute h hs ho ih => exact ih.step (h.wellFormed hm) hs ho
  | outside _ hregisters _ ih => exact ⟨by rw [hregisters]; exact ih.flags, ih.width⟩

/-- Instructions that are executed one after another go on with a trace. -/
theorem Traced.executes (h : Traced m before last) {n : ℕ} (he : Executes n last next) :
    ∃ others, others.length = n ∧ Traced m (before ++ others) next := by
  induction he generalizing before with
  | refl last => exact ⟨[], rfl, (List.append_nil before).symm ▸ h⟩
  | @step n last middle next outcome _ hs ho _ ih =>
    obtain ⟨others, hlen, hothers⟩ := ih (h.execute hs ho)
    exact ⟨last :: others, congrArg (· + 1) hlen, by rwa [List.append_assoc] at hothers⟩

/-- **A run is a trace** of as many instructions as it counts. -/
theorem exists_traced_run (hm : m.WellFormed) (ht : m.status ≠ .terminated) (hl : m.loaded ≠ 0) (limit : ℕ) :
    ∃ before, Traced m before (m.run limit).2 ∧ (m.run limit).2.steps = m.steps + before.length := by
  have hstart : Traced m [] ({ m with status := .running } : Machine Op σ) :=
    .outside .start rfl (hm.congr rfl rfl rfl)
  obtain ⟨n, last, -, hexec, hend⟩ := drive_executes limit 0 ({ m with status := .running } : Machine Op σ) hl
  obtain ⟨-, hsteps, -⟩ := hexec.spec hl Status.noConfusion
  obtain ⟨before, hlen, hbefore⟩ := hstart.executes hexec
  have hrun : (m.run limit).2 = last.pause := by
    rw [run_of_start (start_of_loaded ht hl)]
    rcases hend with ⟨hd, -⟩ | ⟨e, -, -, hd⟩ <;> rw [hd] <;> rfl
  have hregisters : last.pause.registers = last.registers := by
    unfold pause
    by_cases hr : last.status = .running
    · rw [if_pos hr]
    · rw [if_neg hr]
  rw [hrun, steps_pause, hsteps, ← hlen]
  exact ⟨before, .outside hbefore hregisters (hbefore.wellFormed hm).pause, rfl⟩

/-! ### Branches -/

/-- **A condition holds of the flags** when its relation holds of the values that were compared last. -/
theorem Followed.taken_iff {s : State σ} (h : Followed before s.toMachine) {x y : Word}
    (hxy : lastCompared before = some (x, y)) (c : Condition) : c.taken s.flags = true ↔ c.Relates x y := by
  have hflags : some (Word.mk 3 s.flags) = some (compare x y) := by
    have hcompare := h.flags
    rw [hxy] at hcompare
    exact (State.get?_flags s).symm.trans hcompare
  obtain ⟨hx, hy⟩ := h.width x y hxy
  obtain ⟨wx, x⟩ := x
  obtain ⟨wy, y⟩ := y
  obtain rfl : wx = 16 := hx
  obtain rfl : wy = 16 := hy
  rw [← holds_eq, Option.some.inj hflags]
  exact holds_compare x y c

namespace State

/-- An instruction that does not halt leaves the program counter to the step. -/
theorem step_of_execute {s t : State σ} {target : Option (BitVec 16)}
    (h : s.execute s.a s.b s.c s.second s.op = (target, t)) (ht : t.status ≠ .terminated) :
    s.step = (.executed, { t with
      steps := s.steps + 1, pc := target.getD (s.pc + BitVec.ofNat 16 s.op.words) }) := by
  unfold step
  rw [h]
  exact if_neg ht

/-- **A branch goes to its operand when it is taken**, else behind itself, and does nothing else. -/
theorem branch_toMachine (s : State σ) (ht : s.status ≠ .terminated) (hl : s.loaded ≠ 0) {c : Condition}
    {source : Source} (hop : s.op = .branch c source) : ∃ target : BitVec 16,
      perform (operand s.args 0 source) s.toMachine = (⟨16, target⟩, s.toMachine) ∧
      perform (action s.op s.args) s.toMachine =
        (if c.taken s.flags = true then .jump target.toNat else .next, s.toMachine) ∧
      s.toMachine.step.1 = .ok .executed ∧
      s.toMachine.step.2.pc =
        if c.taken s.flags = true then target.toNat else (s.pc.toNat + s.op.words) % 2 ^ 16 := by
  have hargs := s.operands_args
  rw [hop] at hargs
  have hexecute : s.execute s.a s.b s.c s.second s.op =
      (if c.taken s.flags then some (s.last s.a s.second source) else none, s) := by
    rw [hop]
    rfl
  have haction := perform_action s s.operands_args
  have hstep := step_toMachine s ht hl
  rw [hexecute] at haction
  rw [step_of_execute hexecute ht] at hstep
  refine ⟨s.last s.a s.second source, perform_operand s hargs.first hargs.value, ?_, by rw [hstep], ?_⟩
  · rw [haction]
    cases c.taken s.flags <;> rfl
  · rw [hstep, pc_toMachine]
    cases c.taken s.flags with
    | true => rfl
    | false =>
      change (s.pc + BitVec.ofNat 16 s.op.words).toNat = _
      rw [BitVec.toNat_add, BitVec.toNat_ofNat, Nat.add_mod_mod]
      rfl

end State

/-- **Branches follow the last comparison.** Along every trace of a machine whose registers were zero,
with any program and any host, the flags are those of the values that were compared last, and zero
before the first comparison. After a comparison an executed branch goes to its operand exactly when
its relation holds of these values; else it goes on behind itself, and it does nothing else. -/
theorem branches_follow_comparison (hm : m.WellFormed) (hzero : ∀ r ∈ m.registers.toList, r.value.toNat = 0)
    (h : Traced m before last) :
    last.registers.get? flagsName =
      some ((lastCompared before).elim (Word.zero flagsSize) fun v => compare v.1 v.2) ∧
    ∀ (i : Instruction Op) (c : Condition) (source : Source) (args : List String) (x y : Word),
      last.status ≠ .terminated → last.loaded ≠ 0 → last.peek = .ok i →
      i.body = .operation (.branch c source) args → lastCompared before = some (x, y) →
        ∃ target, perform (operand args 0 source) last = (target, last) ∧
          last.execute i = (if c.Relates x y then .jump target.toNat else .next, last) ∧
          last.step.1 = .ok .executed ∧
          last.step.2.pc = if c.Relates x y then target.toNat else (last.pc + i.wordCount) % 2 ^ 16 := by
  have hfollowed := h.followed hm hzero
  refine ⟨hfollowed.flags, fun i c source args x y ht hl hpeek hbody hxy => ?_⟩
  -- the machine in numbers
  have hlast := State.toMachine_ofMachine (h.wellFormed hm)
  generalize State.ofMachine last = s at hlast
  subst hlast
  obtain rfl := Except.ok.inj (s.peek_toMachine.symm.trans hpeek)
  obtain ⟨hop, rfl⟩ := Body.operation.inj hbody
  obtain ⟨target, hoperand, hexecute, houtcome, hpc⟩ := s.branch_toMachine ht hl hop
  simp only [hfollowed.taken_iff hxy c] at hexecute hpc
  rw [State.pc_toMachine s]
  exact ⟨⟨16, target⟩, hoperand, hexecute, houtcome, hpc⟩

/-- A comparison of zero with minus one, which is larger as an unsigned number only. -/
theorem branches_follow_comparison_below :
    ∃ (m last : Machine Op Silence) (i : Instruction Op) (args : List String),
    m.WellFormed ∧ (∀ r ∈ m.registers.toList, r.value.toNat = 0) ∧ Traced m [m] last ∧
    last.status ≠ .terminated ∧ last.loaded ≠ 0 ∧ last.peek = .ok i ∧
    i.body = .operation (.branch .below .immediate) args ∧ lastCompared [m] = some (⟨16, 0⟩, ⟨16, -1⟩) ∧
    last.registers.get? flagsName = some (compare ⟨16, 0⟩ ⟨16, -1⟩) ∧
    ∃ target, last.execute i = (.jump target, last) ∧ last.step.1 = .ok .executed ∧ last.step.2.pc = target := by
  -- `cmp $1, -1` and a branch back to it
  let s : State Silence :=
    { pc := 0, register := fun _ => 0, flags := 0,
      memory := fun x => if x = 0 then 0x5880 else if x = 1 then 0xFFFF else if x = 2 then 0xA800 else 0
      loaded := 4, status := .paused, host := .silence, output := #[], steps := 0 }
  let t : State Silence := { s with flags := comparison 0 (-1), pc := 2, steps := 1 }
  have hop : s.op = .cmp .immediate := by decide
  have hcompares : s.read s.a = 0 ∧ s.second = -1 := by decide
  have hexecute : s.execute s.a s.b s.c s.second s.op = (none, { s with flags := comparison 0 (-1) }) := by
    rw [hop]
    change (none, ({ s with flags := comparison (s.read s.a) s.second } : State Silence)) = _
    rw [hcompares.1, hcompares.2]
  have hnext : s.step = (.executed, t) := by
    rw [State.step_of_execute hexecute Status.noConfusion, hop]
    rfl
  have hwell : s.toMachine.WellFormed := s.wellFormed_toMachine (by decide)
  have hzero : ∀ r ∈ s.toMachine.registers.toList, r.value.toNat = 0 := by
    change ∀ r ∈ s.registers.toList, r.value.toNat = 0
    decide
  have hstep := s.step_toMachine Status.noConfusion (by decide)
  rw [hnext] at hstep
  have htraced : Traced s.toMachine [s.toMachine] t.toMachine := Traced.start.execute hstep Outcome.noConfusion
  have hcompared : lastCompared [s.toMachine] = some (⟨16, 0⟩, ⟨16, -1⟩) := by
    have hlast := lastCompared_concat [] s.toMachine
    rw [s.compared_toMachine, hop, hcompares.1, hcompares.2] at hlast
    exact hlast
  have hpeek := t.peek_toMachine
  have hbranch : t.op = .branch .below .immediate := by decide
  rw [hbranch] at hpeek
  obtain ⟨hflags, htaken⟩ := branches_follow_comparison hwell hzero htraced
  obtain ⟨target, -, hexecute, houtcome, hpc⟩ :=
    htaken _ _ _ _ _ _ Status.noConfusion (by decide) hpeek rfl hcompared
  rw [hcompared] at hflags
  exact ⟨_, _, _, _, hwell, hzero, htraced, Status.noConfusion, by decide, hpeek, rfl, hcompared, hflags, _,
    hexecute, houtcome, hpc⟩

end TinyIsa.Armlet
