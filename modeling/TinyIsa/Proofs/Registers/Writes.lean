import Mathlib
import TinyIsa.Proofs.Except
import TinyIsa.Proofs.Registers
import TinyIsa.Proofs.Word.Arithmetic

/-!
# Register banks as ordered maps

A bank is known from its declarations and from what was written to it. The first declaration of a name
says where its register is and the last one what it is like; the last word that was set since the last
reset says what it holds.

* `lastSpec?`, `lastSet?`: the declaration and the word that count.
* `mem_ofSpecs`, `names_ofSpecs`: **the registers of declarations**, where names may come again.
* `toList_writes`: a bank is written register by register.
* `RegisterSpec.after`: a register as its declaration and the writes say; `after_append`: what one more
  write does to it.
* `ordered_map_writes`: **a bank under any writes**, in all that can be seen of it.
-/

namespace TinyIsa

/-- What is written to a bank. -/
inductive Registers.Write where
  /-- A word, to the register of a name. -/
  | set (name : String) (value : Word)
  /-- Zero, to every register. -/
  | reset
deriving DecidableEq

/-- A register after a write to its bank. -/
def Register.write (r : Register) : Registers.Write → Register
  | .set name value => if r.name == name then r.store value else r
  | .reset => { r with value := Word.zero r.value.width }

namespace Registers

/-- The bank after a write. -/
def write (b : Registers) : Write → Registers
  | .set name value => (b.assign name value).2
  | .reset => b.reset

/-- The last declaration of a name. -/
def lastSpec? (name : String) (specs : List RegisterSpec) : Option RegisterSpec :=
  specs.reverse.find? (·.name == name)

/-- The word that was set last under a name since the last reset. -/
def lastSet? (name : String) (writes : List Write) : Option Word :=
  (writes.reverse.takeWhile (· != .reset)).findSome? fun
    | .set other value => if other = name then some value else none
    | .reset => none

/-! ### The registers of declarations -/

variable {b : Registers} {specs : List RegisterSpec}

theorem names_modify {name : String} {f : Register → Register} (h : ∀ r, r.name = name → (f r).name = name) :
    (b.modify name f).toList.map Register.name = b.toList.map Register.name := by
  unfold modify
  rw [List.map_map]
  refine List.map_congr_left fun r _ => ?_
  by_cases hn : r.name = name
  · simp [hn, h r hn]
  · simp [hn]

/-- A declaration adds its name if that is new. -/
theorem names_declare (s : RegisterSpec) : (b.declare s).toList.map Register.name =
    if s.name ∈ b.toList.map Register.name then b.toList.map Register.name
    else b.toList.map Register.name ++ [s.name] := by
  unfold declare
  by_cases hc : b.contains s.name = true
  · rw [if_pos hc, if_pos (contains_iff.1 hc)]
    exact names_modify fun _ _ => rfl
  · rw [if_neg hc, if_neg (fun hmem => hc (contains_iff.2 hmem)), List.map_append]
    rfl

/-- A register of the bank after a declaration is the one declared, or another one that was there. -/
theorem mem_declare {s : RegisterSpec} {r : Register} (h : r ∈ (b.declare s).toList) :
    r = s.fresh ∨ r ∈ b.toList ∧ r.name ≠ s.name := by
  unfold declare at h
  by_cases hc : b.contains s.name = true
  · rw [if_pos hc] at h
    obtain ⟨r₀, hr₀, rfl⟩ := List.mem_map.1 h
    by_cases hn : r₀.name = s.name
    · exact Or.inl (by simp [hn])
    · exact Or.inr (by simp [hn, hr₀])
  · rw [if_neg hc] at h
    rcases List.mem_append.1 h with hr | hr
    · exact Or.inr ⟨hr, fun hn => hc (contains_iff.2 (hn ▸ List.mem_map_of_mem hr))⟩
    · exact Or.inl (List.mem_singleton.1 hr)

theorem ofSpecs_append (specs : List RegisterSpec) (s : RegisterSpec) :
    ofSpecs (specs ++ [s]) = (ofSpecs specs).declare s := by
  unfold ofSpecs
  rw [List.foldl_append]
  rfl

/-- **Names are in the order in which they were first declared.** -/
theorem names_ofSpecs (specs : List RegisterSpec) :
    (ofSpecs specs).toList.map Register.name = (specs.map RegisterSpec.name).eraseDups := by
  induction specs using List.reverseRecOn with
  | nil => rfl
  | append_singleton specs s ih =>
    rw [ofSpecs_append, names_declare, ih, List.map_append, List.eraseDups_append]
    simp only [List.mem_eraseDups, List.map_cons, List.map_nil]
    generalize specs.map RegisterSpec.name = names
    by_cases hs : s.name ∈ names
    · simp [List.removeAll, hs]
    · simp [List.removeAll, hs, List.eraseDups_cons]

/-- No name comes twice. -/
theorem nodup_ofSpecs (specs : List RegisterSpec) : ((ofSpecs specs).toList.map Register.name).Nodup := by
  induction specs using List.reverseRecOn with
  | nil => exact List.nodup_nil
  | append_singleton specs s ih =>
    rw [ofSpecs_append, names_declare]
    by_cases hs : s.name ∈ (ofSpecs specs).toList.map Register.name
    · rw [if_pos hs]
      exact ih
    · rw [if_neg hs]
      rw [← List.concat_eq_append]
      exact ih.concat hs

/-- **A register is as the last declaration of its name says.** -/
theorem mem_ofSpecs {r : Register} (h : r ∈ (ofSpecs specs).toList) :
    ∃ s, lastSpec? r.name specs = some s ∧ r = s.fresh := by
  induction specs using List.reverseRecOn with
  | nil => exact absurd h List.not_mem_nil
  | append_singleton specs s ih =>
    rw [ofSpecs_append] at h
    unfold lastSpec?
    rw [List.reverse_concat]
    rcases mem_declare h with rfl | ⟨hr, hne⟩
    · exact ⟨s, List.find?_cons_of_pos (by simp [RegisterSpec.fresh]), rfl⟩
    · rw [List.find?_cons_of_neg (by simpa using hne.symm)]
      exact ih hr

/-- Declarations are taken when their widths are within bounds. -/
theorem ofSpecsChecked_eq_ok : ofSpecsChecked specs = .ok b ↔
    (∀ s ∈ specs, 1 ≤ s.width ∧ s.width ≤ maxWidth) ∧ ofSpecs specs = b := by
  have hcheck : ∀ s : RegisterSpec,
      discard (Word.checked s.width Word.zero) = .ok () ↔ 1 ≤ s.width ∧ s.width ≤ maxWidth := by
    intro s
    rw [discard_eq_ok]
    simp only [Word.checked_eq_ok_iff, exists_and_left, exists_eq', and_true]
  unfold ofSpecsChecked
  rw [bind_eq_ok]
  constructor
  · rintro ⟨_, hall, hb⟩
    exact ⟨fun s hs => (hcheck s).1 (forM_eq_ok.1 hall s hs), Except.ok.inj hb⟩
  · rintro ⟨hall, rfl⟩
    exact ⟨(), forM_eq_ok.2 fun s hs => (hcheck s).2 (hall s hs), rfl⟩

/-! ### Writes -/

/-- A bank is written register by register. -/
theorem toList_write (b : Registers) (w : Write) : (b.write w).toList = b.toList.map (·.write w) := by
  cases w <;> rfl

theorem toList_writes (writes : List Write) (b : Registers) :
    (writes.foldl write b).toList = b.toList.map fun r => writes.foldl Register.write r := by
  induction writes generalizing b with
  | nil => simp
  | cons w writes ih =>
    rw [List.foldl_cons, ih, toList_write, List.map_map]
    rfl

theorem lastSet?_reset (name : String) (writes : List Write) : lastSet? name (writes ++ [.reset]) = none := by
  simp [lastSet?]

theorem lastSet?_set (name other : String) (value : Word) (writes : List Write) :
    lastSet? name (writes ++ [.set other value]) = if other = name then some value else lastSet? name writes := by
  unfold lastSet?
  rw [List.reverse_concat, List.takeWhile_cons_of_pos (by simp), List.findSome?_cons]
  by_cases h : other = name
  · simp [h]
  · simp [h]

end Registers

/-- A register as its declaration and what was written to the bank say. -/
def RegisterSpec.after (s : RegisterSpec) (writes : List Registers.Write) : Register where
  name := s.name
  value := Word.ofInt s.width (if s.hardwired then 0 else (Registers.lastSet? s.name writes).elim 0 Word.toInt)
  hardwired := s.hardwired

theorem RegisterSpec.after_append (s : RegisterSpec) (writes : List Registers.Write) (w : Registers.Write) :
    s.after (writes ++ [w]) = (s.after writes).write w := by
  cases w with
  | reset =>
    unfold after Register.write
    rw [Registers.lastSet?_reset]
    simp only [Option.elim_none, ite_self, Word.ofInt_zero]
    rfl
  | set name value =>
    unfold after Register.write Register.store
    rw [Registers.lastSet?_set]
    by_cases hn : s.name = name
    · by_cases hh : s.hardwired = true
      · simp [hn, hh]
      · simp [hn, hh, Word.store_eq, Word.ofInt]
    · simp [hn, Ne.symm hn]

/-- **What a register holds after any writes**, by induction on them from the last one. -/
theorem RegisterSpec.after_eq (s : RegisterSpec) (writes : List Registers.Write) :
    writes.foldl Register.write s.fresh = s.after writes := by
  induction writes using List.reverseRecOn with
  | nil => simp [after, RegisterSpec.fresh, Registers.lastSet?, Word.ofInt_zero]
  | append_singleton writes w ih => rw [List.foldl_append, ih, after_append]; rfl

namespace Registers

variable {specs : List RegisterSpec}

/-- The registers of a bank under any writes. -/
theorem mem_writes {writes : List Write} {r : Register} (h : r ∈ (writes.foldl write (ofSpecs specs)).toList) :
    ∃ s, lastSpec? r.name specs = some s ∧ r = s.after writes := by
  rw [toList_writes] at h
  obtain ⟨r₀, hr₀, rfl⟩ := List.mem_map.1 h
  obtain ⟨s, hs, rfl⟩ := mem_ofSpecs hr₀
  rw [RegisterSpec.after_eq]
  exact ⟨s, hs, rfl⟩

theorem shape_write (b : Registers) (w : Write) : (b.write w).shape = b.shape := by
  cases w with
  | set name value => exact shape_assign name value
  | reset => exact shape_reset

theorem shape_writes (writes : List Write) (b : Registers) : (writes.foldl write b).shape = b.shape := by
  induction writes generalizing b with
  | nil => rfl
  | cons w writes ih => rw [List.foldl_cons, ih, shape_write]

/-- To write a word changes the register of its name only. -/
theorem getElem?_assign_of_ne {b : Registers} {name : String} (value : Word) {i : ℕ} {r : Register}
    (h : b.toList[i]? = some r) (hne : r.name ≠ name) : (b.assign name value).2.toList[i]? = some r := by
  unfold assign modify
  rw [List.getElem?_map, h, Option.map_some, if_neg (by simpa using hne)]

/-- **A bank is an ordered map whose values take on the widths of their registers.** Whatever was declared,
with names that come again and widths within bounds, and whatever was written, of any widths: each name
stands in the bank once, in the order of the first declarations. Its register has the width and the
hardwiring of the last declaration. It holds zero if it is hardwired, and otherwise the signed value of the
word that was set last since the last reset, modulo two to the power of the width. A word is taken exactly
if its name was declared, and no other register is changed then. -/
theorem ordered_map_writes (h : ∀ s ∈ specs, 1 ≤ s.width ∧ s.width ≤ maxWidth) (writes : List Write) :
    ∃ start, ofSpecsChecked specs = .ok start ∧
      let bank := writes.foldl write start
      bank.toList.map Register.name = (specs.map RegisterSpec.name).eraseDups ∧
      (bank.toList.map Register.name).Nodup ∧
      (∀ r ∈ bank.toList, bank.get? r.name = some r.value ∧
        ∃ s, lastSpec? r.name specs = some s ∧ r.value.width = s.width ∧ r.hardwired = s.hardwired ∧
          (r.value.toNat : ℤ) =
            if s.hardwired then 0 else (lastSet? r.name writes).elim 0 Word.toInt % 2 ^ s.width) ∧
      ∀ name value, ((bank.assign name value).1 = true ↔ name ∈ specs.map RegisterSpec.name) ∧
        (bank.assign name value).2.toList.map Register.name = bank.toList.map Register.name ∧
        ∀ (i : ℕ) (r : Register), bank.toList[i]? = some r → r.name ≠ name →
          (bank.assign name value).2.toList[i]? = some r := by
  refine ⟨ofSpecs specs, ofSpecsChecked_eq_ok.2 ⟨h, rfl⟩, ?_⟩
  intro bank
  have hsame : bank.toList.map Register.name = (ofSpecs specs).toList.map Register.name := by
    rw [← names_shape, ← names_shape, shape_writes]
  have hnames := hsame.trans (names_ofSpecs specs)
  have hnodup : (bank.toList.map Register.name).Nodup := hsame ▸ nodup_ofSpecs specs
  refine ⟨hnames, hnodup, ?_, ?_⟩
  · -- what is in a register
    intro r hr
    obtain ⟨s, hs, rfl⟩ := mem_writes hr
    refine ⟨get?_of_mem hnodup hr, s, hs, rfl, rfl, ?_⟩
    unfold RegisterSpec.after
    rw [Word.toNat_ofInt]
    by_cases hh : s.hardwired = true
    · rw [if_pos hh, if_pos hh, Int.zero_emod]
    · rw [if_neg hh, if_neg hh]
  · -- what one more word does
    intro name value
    have htaken : bank.contains name = true ↔ name ∈ specs.map RegisterSpec.name := by
      rw [contains_iff, hnames, List.mem_eraseDups]
    have hkept : (bank.assign name value).2.toList.map Register.name = bank.toList.map Register.name := by
      rw [← names_shape, ← names_shape, shape_assign]
    exact ⟨htaken, hkept, fun i r hr hne => getElem?_assign_of_ne value hr hne⟩

/-- A register that is declared again, with another width, keeps its place. A negative word of four bits is
set in its three. -/
theorem ordered_map_writes_redeclared : ∃ (specs : List RegisterSpec) (writes : List Write) (start : Registers),
    specs = [⟨"f", 16, true⟩, ⟨"z", 16, true⟩, ⟨"f", 3, false⟩] ∧
    writes = [.set "f" ⟨64, 6⟩, .reset, .set "f" (Word.ofInt 4 (-3)), .set "z" ⟨16, 5⟩] ∧
    ofSpecsChecked specs = .ok start ∧
    (writes.foldl write start).toList.map Register.name = ["f", "z"] ∧
    (∀ r ∈ (writes.foldl write start).toList, r.name = "f" → r.value.width = 3 ∧ (r.value.toNat : ℤ) = 5) ∧
    ∀ r ∈ (writes.foldl write start).toList, r.name = "z" → r.value.width = 16 ∧ (r.value.toNat : ℤ) = 0 := by
  let specs : List RegisterSpec := [⟨"f", 16, true⟩, ⟨"z", 16, true⟩, ⟨"f", 3, false⟩]
  let writes : List Write := [.set "f" ⟨64, 6⟩, .reset, .set "f" (Word.ofInt 4 (-3)), .set "z" ⟨16, 5⟩]
  have hwidths : ∀ s ∈ specs, 1 ≤ s.width ∧ s.width ≤ maxWidth := by decide
  obtain ⟨start, hstart, hnames, -, hregisters, -⟩ := ordered_map_writes hwidths writes
  have hread : ∀ (name : String) (s : RegisterSpec), lastSpec? name specs = some s →
      ∀ r ∈ (writes.foldl write start).toList, r.name = name → r.value.width = s.width ∧
        (r.value.toNat : ℤ) = if s.hardwired then 0 else (lastSet? name writes).elim 0 Word.toInt % 2 ^ s.width := by
    rintro name s hs r hr rfl
    obtain ⟨-, s', hs', hwidth, -, hvalue⟩ := hregisters r hr
    obtain rfl := Option.some.inj (hs.symm.trans hs')
    exact ⟨hwidth, hvalue⟩
  have hlast : (lastSet? "f" writes).elim 0 Word.toInt % 2 ^ 3 = 5 := by decide
  refine ⟨specs, writes, start, rfl, rfl, hstart, hnames.trans (by decide), fun r hr hname => ?_,
    hread "z" ⟨"z", 16, true⟩ rfl⟩
  obtain ⟨hwidth, hvalue⟩ := hread "f" ⟨"f", 3, false⟩ rfl r hr hname
  exact ⟨hwidth, hvalue.trans hlast⟩

end Registers

end TinyIsa
