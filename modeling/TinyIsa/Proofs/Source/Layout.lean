import Mathlib
import TinyIsa.Proofs.Except
import TinyIsa.Source.Layout

/-!
# Layout of a program

* `placeFrom`: a program from a given address on; `place_eq`: placing starts at zero.
* `getElem?_placeFrom`: an instruction stands behind the words of those before it.
* `flatMap_words`: the words of the instructions, one after the other, are all words of the program.
* `labelTable_eq_ok`: the table is the one of the labels, whose names differ.
-/

namespace TinyIsa

variable {Op : Type} [InstructionSet Op]

theorem totalWords_cons (i : Instruction Op) (p : List (Instruction Op)) :
    totalWords (i :: p) = i.wordCount + totalWords p := rfl

theorem totalWords_take_le (p : List (Instruction Op)) (k : ℕ) : totalWords (p.take k) ≤ totalWords p := by
  induction p generalizing k with
  | nil => simp
  | cons i p ih =>
    cases k with
    | zero => exact Nat.zero_le _
    | succ k =>
      have h := ih k
      rw [List.take_succ_cons, totalWords_cons, totalWords_cons]
      omega

/-- The program with the address of each instruction, the first one at a given address. -/
def placeFrom (a : ℕ) : List (Instruction Op) → List (Instruction Op)
  | [] => []
  | i :: p => { i with address := some a } :: placeFrom (a + i.wordCount) p

theorem place_eq (p : List (Instruction Op)) : place p = placeFrom 0 p := by
  have key : ∀ (p : List (Instruction Op)) (a : ℕ),
      p.zipWith (fun i a => { i with address := some a }) ((p.map Instruction.wordCount).scanl (· + ·) a) =
        placeFrom a p := by
    intro p
    induction p with
    | nil => intro a; rfl
    | cons i p ih =>
      intro a
      rw [List.map_cons, List.scanl_cons, List.zipWith_cons_cons, ih]
      rfl
  exact key p 0

/-- **An instruction stands behind the words of those before it.** -/
theorem getElem?_placeFrom (a : ℕ) (p : List (Instruction Op)) (k : ℕ) :
    (placeFrom a p)[k]? = p[k]?.map fun i => { i with address := some (a + totalWords (p.take k)) } := by
  induction p generalizing a k with
  | nil => rfl
  | cons i p ih =>
    cases k with
    | zero => rfl
    | succ k =>
      rw [placeFrom, List.getElem?_cons_succ, List.getElem?_cons_succ, ih, List.take_succ_cons,
        totalWords_cons, Nat.add_assoc]

/-- Only the last addresses count. -/
theorem placeFrom_placeFrom (a b : ℕ) (p : List (Instruction Op)) :
    placeFrom a (placeFrom b p) = placeFrom a p := by
  induction p generalizing a b with
  | nil => rfl
  | cons i p ih =>
    change { i with address := some a } :: placeFrom (a + i.wordCount) (placeFrom (b + i.wordCount) p) = _
    rw [ih]
    rfl

/-- Addresses have no part in the size of a program. -/
theorem totalWords_placeFrom (a : ℕ) (p : List (Instruction Op)) :
    totalWords (placeFrom a p) = totalWords p := by
  induction p generalizing a with
  | nil => rfl
  | cons i p ih =>
    rw [placeFrom, totalWords_cons, totalWords_cons, ih]
    rfl

theorem take_placeFrom (a : ℕ) (p : List (Instruction Op)) (k : ℕ) :
    (placeFrom a p).take k = placeFrom a (p.take k) := by
  induction p generalizing a k with
  | nil => simp [placeFrom]
  | cons i p ih =>
    cases k with
    | zero => rfl
    | succ k => rw [placeFrom, List.take_succ_cons, List.take_succ_cons, ih, placeFrom]

/-- **The words of the instructions, one after the other, are all words of the program**, by induction on
the program that is left. -/
theorem flatMap_words {β : Type} (f : ℕ → β) (a : ℕ) (p : List (Instruction Op)) :
    (placeFrom a p).flatMap (fun i => (List.range i.wordCount).map fun k => f (i.address.getD 0 + k)) =
      (List.range (totalWords p)).map fun k => f (a + k) := by
  induction p generalizing a with
  | nil => rfl
  | cons i p ih =>
    have hrest : ((List.range (totalWords p)).map (i.wordCount + ·)).map (fun k => f (a + k)) =
        (List.range (totalWords p)).map fun k => f (a + i.wordCount + k) := by
      rw [List.map_map]
      exact List.map_congr_left fun k _ => congrArg f (Nat.add_assoc a i.wordCount k).symm
    -- the words behind the first instruction are counted from its end
    rw [placeFrom, List.flatMap_cons, ih, totalWords_cons, List.range_add, List.map_append, hrest]
    rfl

/-! ### Labels -/

theorem labelAddresses_placeFrom_cons (a : ℕ) (i : Instruction Op) (p : List (Instruction Op)) :
    labelAddresses (placeFrom a (i :: p)) =
      i.labels.map (·, a) ++ labelAddresses (placeFrom (a + i.wordCount) p) := rfl

/-- A table with one more label, whose name it must not have yet. -/
def insertLabel (table : Std.HashMap String ℕ) (x : Label × ℕ) :
    Except ParseError (Std.HashMap String ℕ) :=
  if table.contains x.1.name then .error { fault := .duplicateLabel x.1.name, line := x.1.line }
  else .ok (table.insert x.1.name x.2)

theorem labelTable_eq (labels : List (Label × ℕ)) : labelTable labels = labels.foldlM insertLabel ∅ := rfl

/-- A table that is extended keeps its entries, since no name is inserted twice. -/
theorem get?_insertLabel {table next : Std.HashMap String ℕ} {x : Label × ℕ}
    (h : insertLabel table x = .ok next) (name : String) (target : ℕ) :
    next.get? name = some target ↔ table.get? name = some target ∨ x.1.name = name ∧ x.2 = target := by
  unfold insertLabel at h
  by_cases hc : table.contains x.1.name = true
  · rw [if_pos hc] at h
    exact absurd h (by simp)
  rw [if_neg hc] at h
  obtain rfl := Except.ok.inj h
  rw [Std.HashMap.get?_insert]
  by_cases hn : x.1.name = name
  · have hnone : table.get? name = none := by
      rw [← hn, Std.HashMap.get?_eq_getElem?]
      exact Std.HashMap.getElem?_eq_none_of_contains_eq_false (eq_false_of_ne_true hc)
    rw [if_pos (by simpa using hn), hnone]
    simp [hn]
  · rw [if_neg (by simpa using hn)]
    simp [hn]

/-- **The table of labels** has the address of each label under its name, and nothing else. -/
theorem labelTable_eq_ok {labels : List (Label × ℕ)} {table : Std.HashMap String ℕ}
    (h : labelTable labels = .ok table) (name : String) (target : ℕ) :
    table.get? name = some target ↔ ∃ l, (l, target) ∈ labels ∧ l.name = name := by
  have key : ∀ (labels : List (Label × ℕ)) (start : Std.HashMap String ℕ),
      labels.foldlM insertLabel start = .ok table →
        (table.get? name = some target ↔
          start.get? name = some target ∨ ∃ l, (l, target) ∈ labels ∧ l.name = name) := by
    intro labels
    induction labels with
    | nil =>
      intro start h
      obtain rfl : start = table := Except.ok.inj h
      simp
    | cons x labels ih =>
      intro start h
      rw [List.foldlM_cons] at h
      obtain ⟨next, hnext, h⟩ := bind_eq_ok.1 h
      rw [ih next h, get?_insertLabel hnext, or_assoc]
      refine or_congr_right ?_
      constructor
      · rintro (⟨hname, rfl⟩ | ⟨l, hl, hname⟩)
        · exact ⟨x.1, List.mem_cons_self, hname⟩
        · exact ⟨l, List.mem_cons_of_mem x hl, hname⟩
      · rintro ⟨l, hl, hname⟩
        rcases List.mem_cons.1 hl with rfl | hl
        · exact Or.inl ⟨hname, rfl⟩
        · exact Or.inr ⟨l, hl, hname⟩
  rw [labelTable_eq] at h
  rw [key labels ∅ h]
  simp

end TinyIsa
