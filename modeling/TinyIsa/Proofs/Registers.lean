import Mathlib
import TinyIsa.Registers

/-!
# Register banks under writing

Names, widths and hardwiring of a bank are its shape. Writing changes the values only.

* `shape_assign`, `shape_reset`: the shape is kept.
* `grounded_assign`, `grounded_reset`: so is that hardwired registers are zero.
* `reset_congr`, `reset_ofSpecs`: a bank is reset to what its shape says.
* `shape_ofSpecs`: the shape of a bank of declarations with different names.
* `get?_assign_self`, `get?_assign_of_ne`: what is read where something was written, and elsewhere.
* `eq_of_get?`: a bank is known by its shape and the values under its names.
-/

namespace TinyIsa.Registers

/-- Name, width and hardwiring of each register. -/
def shape (b : Registers) : List (String × ℕ × Bool) :=
  b.toList.map fun r => (r.name, r.value.width, r.hardwired)

/-- Hardwired registers are zero. -/
def Grounded (b : Registers) : Prop :=
  ∀ r ∈ b.toList, r.hardwired = true → r.value = Word.zero r.value.width

variable {b b' : Registers}

theorem names_shape : b.shape.map Prod.fst = b.toList.map Register.name := by
  simp [shape, Function.comp_def]

theorem shape_modify {name : String} {f : Register → Register}
    (h : ∀ r, (f r).name = r.name ∧ (f r).value.width = r.value.width ∧ (f r).hardwired = r.hardwired) :
    (b.modify name f).shape = b.shape := by
  unfold shape modify
  rw [List.map_map]
  refine List.map_congr_left fun r _ => ?_
  obtain ⟨h1, h2, h3⟩ := h r
  by_cases hn : (r.name == name) = true
  · simp only [Function.comp_apply, hn, if_true, h1, h2, h3]
  · simp only [Function.comp_apply, hn, Bool.false_eq_true, if_false]

theorem store_shape (value : Word) (r : Register) :
    (r.store value).name = r.name ∧ (r.store value).value.width = r.value.width ∧
      (r.store value).hardwired = r.hardwired := by
  unfold Register.store
  by_cases h : r.hardwired = true
  · rw [if_pos h]; exact ⟨rfl, rfl, rfl⟩
  · rw [if_neg h]; exact ⟨rfl, rfl, rfl⟩

theorem shape_assign (name : String) (value : Word) : (b.assign name value).2.shape = b.shape :=
  shape_modify (store_shape value)

theorem shape_reset : b.reset.shape = b.shape := by
  unfold shape reset
  rw [List.map_map]
  rfl

theorem grounded_assign (h : b.Grounded) (name : String) (value : Word) :
    (b.assign name value).2.Grounded := by
  intro r hr hw
  obtain ⟨r₀, hr₀, rfl⟩ := List.mem_map.1 hr
  by_cases hn : (r₀.name == name) = true
  · simp only [hn, if_true] at hw ⊢
    have hw₀ : r₀.hardwired = true := (store_shape value r₀).2.2.symm.trans hw
    unfold Register.store
    rw [if_pos hw₀]
    exact h r₀ hr₀ hw₀
  · simp only [hn, Bool.false_eq_true, if_false] at hw ⊢
    exact h r₀ hr₀ hw

theorem grounded_reset : b.reset.Grounded := by
  intro r hr _
  obtain ⟨r₀, -, rfl⟩ := List.mem_map.1 hr
  rfl

/-- The registers of a fresh bank are zero. -/
theorem ofSpecs_zero (specs : List RegisterSpec) :
    ∀ r ∈ (ofSpecs specs).toList, r.value = Word.zero r.value.width := by
  have key : ∀ (specs : List RegisterSpec) (b : Registers),
      (∀ r ∈ b.toList, r.value = Word.zero r.value.width) →
        ∀ r ∈ (specs.foldl declare b).toList, r.value = Word.zero r.value.width := by
    intro specs
    induction specs with
    | nil => intro b hb; exact hb
    | cons s specs ih =>
      intro b hb
      refine ih (b.declare s) fun r hr => ?_
      -- a declaration is at zero, in the place of an earlier one or at the end
      unfold declare at hr
      by_cases hc : b.contains s.name = true
      · rw [if_pos hc] at hr
        obtain ⟨r₀, hr₀, rfl⟩ := List.mem_map.1 hr
        by_cases hn : (r₀.name == s.name) = true
        · simp only [hn, if_true]; rfl
        · simp only [hn, Bool.false_eq_true, if_false]; exact hb r₀ hr₀
      · rw [if_neg hc] at hr
        rcases List.mem_append.1 hr with hr | hr
        · exact hb r hr
        · obtain rfl := List.mem_singleton.1 hr
          rfl
  exact key specs ⟨[]⟩ fun r hr => absurd hr List.not_mem_nil

/-- **A reset depends on the shape of a bank only**, not on what was written to it. -/
theorem reset_congr (h : b.shape = b'.shape) : b.reset = b'.reset := by
  have hreset : ∀ b : Registers,
      b.reset = ⟨b.shape.map fun s => ⟨s.1, Word.zero s.2.1, s.2.2⟩⟩ := by
    intro b
    unfold reset shape
    rw [List.map_map]
    rfl
  rw [hreset, hreset, h]

theorem reset_ofSpecs (specs : List RegisterSpec) : (ofSpecs specs).reset = ofSpecs specs := by
  have hzero : ∀ r ∈ (ofSpecs specs).toList, { r with value := Word.zero r.value.width } = r := by
    intro r hr
    rw [← ofSpecs_zero specs r hr]
  unfold reset
  rw [List.map_congr_left hzero, List.map_id']

theorem grounded_ofSpecs (specs : List RegisterSpec) : (ofSpecs specs).Grounded :=
  fun r hr _ => ofSpecs_zero specs r hr

theorem contains_iff {name : String} : b.contains name = true ↔ name ∈ b.toList.map Register.name := by
  simp [contains]

theorem not_contains {name : String} (h : name ∉ b.shape.map Prod.fst) : b.contains name = false := by
  rw [names_shape, ← contains_iff] at h
  exact Bool.eq_false_iff.2 h

/-- **Declarations with different names** give the registers in their order. -/
theorem shape_ofSpecs {specs : List RegisterSpec} (h : (specs.map RegisterSpec.name).Nodup) :
    (ofSpecs specs).shape = specs.map fun s => (s.name, s.width, s.hardwired) := by
  -- those still to come have names that the bank does not have yet
  have key : ∀ (specs : List RegisterSpec) (b : Registers), (specs.map RegisterSpec.name).Nodup →
      (∀ s ∈ specs, s.name ∉ b.shape.map Prod.fst) →
        (specs.foldl declare b).shape = b.shape ++ specs.map fun s => (s.name, s.width, s.hardwired) := by
    intro specs
    induction specs with
    | nil => intro b _ _; simp
    | cons s specs ih =>
      intro b hn hb
      have hdeclare : (b.declare s).shape = b.shape ++ [(s.name, s.width, s.hardwired)] := by
        unfold declare
        rw [not_contains (hb s List.mem_cons_self)]
        simp [shape, RegisterSpec.fresh, Word.zero]
      rw [List.map_cons, List.nodup_cons] at hn
      have hfresh : ∀ t ∈ specs, t.name ∉ (b.declare s).shape.map Prod.fst := by
        intro t ht hmem
        rw [hdeclare, List.map_append, List.mem_append] at hmem
        rcases hmem with hmem | hmem
        · exact hb t (List.mem_cons_of_mem s ht) hmem
        · have hts : t.name = s.name := by simpa using hmem
          exact hn.1 (hts ▸ List.mem_map_of_mem ht)
      rw [List.foldl_cons, ih _ hn.2 hfresh, hdeclare]
      simp
  exact key specs ⟨[]⟩ h (by simp [shape])

/-- The first register of a name that has no other is found under it. -/
theorem get?_of_mem (hn : (b.toList.map Register.name).Nodup) {r : Register} (hr : r ∈ b.toList) :
    b.get? r.name = some r.value := by
  unfold get?
  have hf : b.toList.find? (·.name == r.name) = some r := by
    obtain ⟨l⟩ := b
    induction l with
    | nil => exact absurd hr List.not_mem_nil
    | cons s l ih =>
      rw [List.map_cons, List.nodup_cons] at hn
      rcases List.mem_cons.1 hr with rfl | hr
      · simp
      · have hne : s.name ≠ r.name := fun he => hn.1 (he ▸ List.mem_map_of_mem hr)
        rw [List.find?_cons_of_neg (by simpa using hne)]
        exact ih hn.2 hr
  rw [hf, Option.map_some]

/-- A register in the shape has a value of its width. -/
theorem get?_of_mem_shape (hn : (b.toList.map Register.name).Nodup) {name : String} {w : ℕ} {hw : Bool}
    (h : (name, w, hw) ∈ b.shape) :
    ∃ x : BitVec w, b.get? name = some ⟨w, x⟩ ∧ (b.Grounded → hw = true → x = 0) := by
  obtain ⟨r, hr, he⟩ := List.mem_map.1 h
  have hget := get?_of_mem hn hr
  obtain ⟨name', ⟨w', x⟩, hw'⟩ := r
  cases he
  refine ⟨x, hget, fun hg hwt => ?_⟩
  have hz := hg _ hr hwt
  exact eq_of_heq (Word.mk.inj hz).2

/-- What is read from a register that a word was stored in. -/
theorem get?_assign_self (hn : (b.toList.map Register.name).Nodup) {name : String} {w : ℕ}
    (h : (name, w, false) ∈ b.shape) (value : Word) :
    (b.assign name value).2.get? name = some ⟨w, value.operand w⟩ := by
  have hnames : ((b.assign name value).2.toList.map Register.name).Nodup := by
    rw [← names_shape, shape_assign, names_shape]
    exact hn
  obtain ⟨r, hr, he⟩ := List.mem_map.1 h
  obtain ⟨rfl, hwidth, hhard⟩ : r.name = name ∧ r.value.width = w ∧ r.hardwired = false := by
    simpa using he
  have hmem : r.store value ∈ (b.assign r.name value).2.toList := List.mem_map.2 ⟨r, hr, by simp⟩
  have hget := get?_of_mem hnames hmem
  rw [(store_shape value r).1] at hget
  rw [hget, ← hwidth]
  unfold Register.store
  rw [if_neg (by simp [hhard])]
  rfl

/-- What is read from a register that nothing was stored in. -/
theorem get?_assign_of_ne {name other : String} (h : other ≠ name) (value : Word) :
    (b.assign name value).2.get? other = b.get? other := by
  have hsame : ((fun r : Register => r.name == other) ∘
      fun r => if r.name == name then r.store value else r) = fun r => r.name == other := by
    funext r
    by_cases hn : (r.name == name) = true
    · simp only [Function.comp_apply, hn, if_true, (store_shape value r).1]
    · simp only [Function.comp_apply, hn, Bool.false_eq_true, if_false]
  unfold get? assign modify
  simp only [List.find?_map, hsame]
  cases hf : b.toList.find? (·.name == other) with
  | none => rfl
  | some r =>
    have hname : r.name = other := by simpa using List.find?_some hf
    have hne : ¬ (r.name == name) = true := by simpa [hname] using h
    rw [Option.map_some, Option.map_some, Option.map_some, if_neg hne]

/-- **A bank is known by its shape and its values.** -/
theorem eq_of_get? (hs : b.shape = b'.shape) (hn : (b.toList.map Register.name).Nodup)
    (hg : ∀ r ∈ b.toList, b.get? r.name = b'.get? r.name) : b = b' := by
  have hnames : b.toList.map Register.name = b'.toList.map Register.name := by
    rw [← names_shape, ← names_shape, hs]
  have hlen : b.toList.length = b'.toList.length := by
    simpa [shape] using congrArg List.length hs
  obtain ⟨l⟩ := b
  obtain ⟨l'⟩ := b'
  congr 1
  -- names and hardwiring agree by the shape, widths and values by the names
  refine List.ext_getElem hlen fun i h1 h2 => ?_
  have hi : (shape ⟨l⟩)[i]? = (shape ⟨l'⟩)[i]? := by rw [hs]
  unfold shape at hi
  rw [List.getElem?_map, List.getElem?_map, List.getElem?_eq_getElem h1, List.getElem?_eq_getElem h2] at hi
  obtain ⟨hname, -, hhard⟩ : l[i].name = l'[i].name ∧ _ ∧ l[i].hardwired = l'[i].hardwired := by
    simpa using hi
  have hv := hg l[i] (List.getElem_mem h1)
  rw [get?_of_mem hn (List.getElem_mem h1), hname,
    get?_of_mem (hnames ▸ hn) (List.getElem_mem (l := l') h2)] at hv
  cases hr : l[i]
  cases hr' : l'[i]
  rw [hr, hr'] at hname hhard hv
  cases hname
  cases hhard
  cases Option.some.inj hv
  rfl

end TinyIsa.Registers
