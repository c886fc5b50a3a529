import Mathlib
import TinyIsa.Machine.Load
import TinyIsa.Proofs.Except
import TinyIsa.Proofs.Word.Digits

/-!
# Memory images

* `mapM_pieces_eq_ok`, `mapM_pieces_eq_error`: a text is read word by word, up to its first character
  that is no digit.
* `image_eq_ok`: the image of a text of digits is the one row of words of the memory's size
  whose digits are those of the text.
* `loadCode_cases`: loading installs this image or leaves the machine as it is.
-/

namespace TinyIsa

variable {α β : Type}

/-! ### Texts of one length -/

theorem length_flatMap_of_length {n : ℕ} {f : β → List α} {l : List β} (h : ∀ b ∈ l, (f b).length = n) :
    (l.flatMap f).length = l.length * n := by
  induction l with
  | nil => simp
  | cons b l ih =>
    rw [List.flatMap_cons, List.length_append, h b List.mem_cons_self,
      ih fun c hc => h c (List.mem_cons_of_mem b hc), List.length_cons, Nat.succ_mul, Nat.add_comm]

theorem flatMap_drop {n : ℕ} {f : β → List α} {l : List β} (h : ∀ b ∈ l, (f b).length = n) (k : ℕ) :
    (l.drop k).flatMap f = (l.flatMap f).drop (k * n) := by
  induction l generalizing k with
  | nil => simp
  | cons b l ih =>
    cases k with
    | zero => simp
    | succ k =>
      have hb := h b List.mem_cons_self
      have hall : (f b).drop (k * n + n) = [] := List.drop_of_length_le (by omega)
      rw [List.drop_succ_cons, ih fun c hc => h c (List.mem_cons_of_mem b hc), List.flatMap_cons,
        Nat.succ_mul, List.drop_append, hall, List.nil_append, hb, Nat.add_sub_cancel_right]

theorem flatMap_take {n : ℕ} {f : β → List α} {l : List β} (h : ∀ b ∈ l, (f b).length = n) (k : ℕ) :
    (l.take k).flatMap f = (l.flatMap f).take (k * n) := by
  induction l generalizing k with
  | nil => simp
  | cons b l ih =>
    cases k with
    | zero => simp
    | succ k =>
      have hb := h b List.mem_cons_self
      have hall : (f b).take (k * n + n) = f b := List.take_of_length_le (by omega)
      rw [List.take_succ_cons, List.flatMap_cons, ih fun c hc => h c (List.mem_cons_of_mem b hc),
        List.flatMap_cons, Nat.succ_mul, List.take_append, hall, hb, Nat.add_sub_cancel_right]

/-- Some texts of one length in a row, put together, are a stretch of the whole row. -/
theorem flatMap_slice {n : ℕ} {f : β → List α} {l : List β} (h : ∀ b ∈ l, (f b).length = n) (k j : ℕ) :
    ((l.drop k).take j).flatMap f = ((l.flatMap f).drop (k * n)).take (j * n) := by
  rw [flatMap_take (fun b hb => h b (List.mem_of_mem_drop hb)) j, flatMap_drop h k]

/-! ### Pieces of a text of digits -/

/-- A piece of the length of a word is read as the word with its digits. -/
theorem ofDigits_piece_eq_ok {n : ℕ} {piece : List Char} (hp : piece.length = n) {w : Word} :
    (Word.ofDigits n piece).mapError LoadError.encoding = .ok w ↔ w.width = n ∧ w.toDigits = piece := by
  rw [mapError_eq_ok]
  constructor
  · intro h
    have hb := Word.binary_of_ofDigits h
    rw [Word.ofDigits_eq_ok hb] at h
    obtain rfl := Except.ok.inj h
    subst hp
    exact ⟨rfl, Word.toDigits_valueOf hb⟩
  · rintro ⟨hw, rfl⟩
    rw [← hw]
    exact Word.ofDigits_toDigits w

/-- The pieces of a text are read as the words whose digits the text consists of. -/
theorem mapM_pieces_eq_ok {n k : ℕ} {s : List Char} (hs : s.length = k * n) {words : List Word} :
    (pieces n k s).mapM (fun piece => (Word.ofDigits n piece).mapError LoadError.encoding) = .ok words ↔
      words.length = k ∧ (∀ w ∈ words, w.width = n) ∧ words.flatMap Word.toDigits = s := by
  induction k generalizing s words with
  | zero =>
    obtain rfl := List.length_eq_zero_iff.1 (hs.trans (Nat.zero_mul n))
    constructor
    · intro h
      obtain rfl : [] = words := Except.ok.inj h
      exact ⟨rfl, by simp, rfl⟩
    · rintro ⟨h, -, -⟩
      obtain rfl := List.length_eq_zero_iff.1 h
      rfl
  | succ k ih =>
    rw [Nat.succ_mul] at hs
    have hfirst : (s.take n).length = n := by rw [List.length_take]; omega
    have hrest : (s.drop n).length = k * n := by rw [List.length_drop]; omega
    rw [pieces, List.mapM_cons, bind_eq_ok]
    simp only [bind_eq_ok, ofDigits_piece_eq_ok hfirst, ih hrest]
    constructor
    · rintro ⟨w, ⟨hw, hd⟩, ws, ⟨hlen, hws, hds⟩, h⟩
      obtain rfl : w :: ws = words := Except.ok.inj h
      refine ⟨by rw [List.length_cons, hlen], List.forall_mem_cons.2 ⟨hw, hws⟩, ?_⟩
      rw [List.flatMap_cons, hd, hds, List.take_append_drop]
    · rintro ⟨hlen, hws, hds⟩
      cases words with
      | nil => exact absurd hlen (by simp)
      | cons w ws =>
        -- the digits of the first word are the first piece, since it has the length of a word
        obtain ⟨hw, hws⟩ := List.forall_mem_cons.1 hws
        have hd : w.toDigits.length = n := (Word.length_toDigits w).trans hw
        rw [List.flatMap_cons] at hds
        refine ⟨w, ⟨hw, ?_⟩, ws, ⟨Nat.succ.inj hlen, hws, ?_⟩, rfl⟩
        · rw [← hds, List.take_left' hd]
        · rw [← hds, List.drop_left' hd]

theorem mem_of_mem_pieces {n k : ℕ} {s piece : List α} (h : piece ∈ pieces n k s) {c : α}
    (hc : c ∈ piece) : c ∈ s := by
  induction k generalizing s with
  | zero => exact absurd h List.not_mem_nil
  | succ k ih =>
    rw [pieces] at h
    rcases List.mem_cons.1 h with rfl | h
    · exact List.mem_of_mem_take hc
    · exact List.mem_of_mem_drop (ih h)

theorem pieces_eq_map (n k : ℕ) (s : List α) :
    pieces n k s = (List.range k).map fun j => (s.drop (j * n)).take n := by
  induction k generalizing s with
  | zero => rfl
  | succ k ih =>
    have hnext : ∀ j, (((s.drop n).drop (j * n)).take n) = (s.drop ((j + 1) * n)).take n := by
      intro j
      rw [List.drop_drop, Nat.succ_mul, Nat.add_comm n]
    rw [pieces, ih, List.range_succ_eq_map, List.map_cons, List.map_map, Nat.zero_mul, List.drop_zero]
    exact congrArg (List.cons _) (List.map_congr_left fun j _ => hnext j)

/-- Pieces of digits are words. -/
theorem exists_mapM_pieces {s : List Char} (hb : Binary s) (n k : ℕ) : ∃ words,
    (pieces n k s).mapM (fun piece => (Word.ofDigits n piece).mapError LoadError.encoding) = .ok words := by
  refine exists_mapM_eq_ok fun piece hpiece => ?_
  have hbinary : Binary piece := fun c hc => hb c (mem_of_mem_pieces hpiece hc)
  exact ⟨_, mapError_eq_ok.2 (Word.ofDigits_eq_ok hbinary n)⟩

/-- **The first character that is no digit is reported**, with the word and the place that it stands
in. -/
theorem mapM_pieces_eq_error {n k : ℕ} {before after : List Char} {c : Char} (hn : 0 < n)
    (hlen : (before ++ c :: after).length = k * n) (hb : Binary before) (hc : isBinary c = false) :
    (pieces n k (before ++ c :: after)).mapM
        (fun piece => (Word.ofDigits n piece).mapError LoadError.encoding) =
      .error (.encoding ⟨String.ofList (((before ++ c :: after).drop (before.length / n * n)).take n),
        before.length % n, c⟩) := by
  induction k generalizing before with
  | zero => simp at hlen
  | succ k ih =>
    rw [pieces, List.mapM_cons]
    rw [Nat.succ_mul, List.length_append, List.length_cons] at hlen
    rcases Nat.lt_or_ge before.length n with hlt | hge
    · -- it stands in the first word
      have htake : (before ++ c :: after).take n = before ++ c :: after.take (n - before.length - 1) := by
        rw [List.take_append, List.take_of_length_le hlt.le, List.take_cons (by omega)]
      rw [Nat.div_eq_of_lt hlt, Nat.mod_eq_of_lt hlt, Nat.zero_mul, List.drop_zero, htake,
        Word.ofDigits_eq_error hb hc]
      rfl
    · -- it stands in a later one
      have htake : (before ++ c :: after).take n = before.take n := List.take_append_of_le_length hge
      have hdrop : (before ++ c :: after).drop n = before.drop n ++ c :: after :=
        List.drop_append_of_le_length hge
      have hrest : (before.drop n ++ c :: after).length = k * n := by
        rw [List.length_append, List.length_drop, List.length_cons]
        omega
      have hword : Word.ofDigits n (before.take n) = .ok (Word.valueOf n (before.take n)) :=
        Word.ofDigits_eq_ok (hb.take n) n
      have hdiv : before.length = (before.drop n).length + n := by
        rw [List.length_drop]
        omega
      have hplace : before.length / n * n = n + (before.drop n).length / n * n := by
        rw [hdiv, Nat.add_div_right _ hn, Nat.succ_mul, Nat.add_comm]
      have hmod : before.length % n = (before.drop n).length % n := by
        rw [hdiv, Nat.add_mod_right]
      rw [htake, hdrop, hword, ih hrest (hb.drop n), hplace, hmod, ← List.drop_drop, hdrop]
      rfl

namespace Machine

open InstructionSet

variable {Op : Type} [InstructionSet Op]

/-- **The image of a text of digits**: the words whose digits the text consists of. -/
theorem image_eq_ok (hw : 0 < wordSize Op) {capacity : ℕ} {code : List Char} {words : List Word} :
    image Op capacity code = .ok words ↔
      words.length ≤ capacity ∧ (∀ w ∈ words, w.width = wordSize Op) ∧
        words.flatMap Word.toDigits = code.filter (!Text.isBlank ·) := by
  unfold image
  generalize code.filter (!Text.isBlank ·) = digits
  simp only
  have hlength : (∀ w ∈ words, w.width = wordSize Op) → words.flatMap Word.toDigits = digits →
      digits.length = words.length * wordSize Op := by
    rintro hwidth rfl
    exact length_flatMap_of_length fun w h => (Word.length_toDigits w).trans (hwidth w h)
  by_cases hal : digits.length % wordSize Op = 0
  · have hdiv : digits.length = digits.length / wordSize Op * wordSize Op :=
      (Nat.div_mul_cancel (Nat.dvd_of_mod_eq_zero hal)).symm
    have hcount : (∀ w ∈ words, w.width = wordSize Op) → words.flatMap Word.toDigits = digits →
        words.length = digits.length / wordSize Op := by
      intro hwidth hd
      rw [hlength hwidth hd, Nat.mul_div_cancel _ hw]
    rw [if_neg (not_not.2 hal)]
    by_cases hc : capacity < digits.length / wordSize Op
    · rw [if_pos hc]
      constructor
      · intro h
        exact absurd h (by simp)
      · rintro ⟨hcap, hwidth, hd⟩
        have := hcount hwidth hd
        omega
    · rw [if_neg hc, mapM_pieces_eq_ok hdiv]
      constructor
      · rintro ⟨hlen, hwidth, hd⟩
        exact ⟨by omega, hwidth, hd⟩
      · rintro ⟨-, hwidth, hd⟩
        exact ⟨hcount hwidth hd, hwidth, hd⟩
  · rw [if_pos hal]
    constructor
    · intro h
      exact absurd h (by simp)
    · rintro ⟨-, hwidth, hd⟩
      rw [hlength hwidth hd, Nat.mul_mod_left] at hal
      exact absurd rfl hal

/-! ### Loading -/

variable {σ : Type} {m m' : Machine Op σ} {code : List Char} {program : List (Instruction Op)}

/-- **A load is refused and leaves the machine as it is, or it installs an image.** -/
theorem loadCode_cases (m : Machine Op σ) (code : List Char) :
    (∃ e, image Op m.memory.size code = .error e ∧ m.loadCode code = (.error e, m)) ∨
      ∃ words, image Op m.memory.size code = .ok words ∧ m.loadCode code = (.ok (), m.install words) := by
  unfold loadCode
  cases image Op m.memory.size code with
  | error e => exact Or.inl ⟨e, rfl, rfl⟩
  | ok words => exact Or.inr ⟨words, rfl, rfl⟩

/-- A program is refused like its digits, and already when it has none. -/
theorem loadProgram_cases (m : Machine Op σ) (program : List (Instruction Op)) :
    (∃ e, machineCode program = .error e ∧ m.loadProgram program = (.error (.instruction e), m)) ∨
      ∃ code, machineCode program = .ok code ∧ m.loadProgram program = m.loadCode code := by
  unfold loadProgram
  cases machineCode program with
  | error e => exact Or.inl ⟨e, rfl, rfl⟩
  | ok code => exact Or.inr ⟨code, rfl, rfl⟩

theorem loadCode_eq_ok :
    m.loadCode code = (.ok (), m') ↔ ∃ words, image Op m.memory.size code = .ok words ∧ m.install words = m' := by
  rcases loadCode_cases m code with ⟨e, hi, hl⟩ | ⟨words, hi, hl⟩ <;> rw [hi, hl] <;> simp

theorem loadProgram_eq_ok : m.loadProgram program = (.ok (), m') ↔
    ∃ code, machineCode program = .ok code ∧ m.loadCode code = (.ok (), m') := by
  rcases loadProgram_cases m program with ⟨e, hc, hl⟩ | ⟨code, hc, hl⟩ <;> rw [hc, hl] <;> simp

/-- The error of a load is that of the image. -/
theorem loadCode_eq_error {e : LoadError} :
    (m.loadCode code).1 = .error e ↔ image Op m.memory.size code = .error e := by
  rcases loadCode_cases m code with ⟨e', hi, hl⟩ | ⟨words, hi, hl⟩ <;> rw [hi, hl] <;> simp

/-- **A text that is refused leaves the machine as it is.** -/
theorem loadCode_of_error {e : LoadError} (h : (m.loadCode code).1 = .error e) : (m.loadCode code).2 = m := by
  rcases loadCode_cases m code with ⟨e', -, hl⟩ | ⟨words, -, hl⟩
  · rw [hl]
  · rw [hl] at h
    exact absurd h (by simp)

/-- **A program that is refused leaves the machine as it is**, whatever the reason. -/
theorem loadProgram_of_error {e : LoadError} (h : (m.loadProgram program).1 = .error e) :
    (m.loadProgram program).2 = m := by
  rcases loadProgram_cases m program with ⟨e', -, hl⟩ | ⟨code, -, hl⟩
  · rw [hl]
  · rw [hl] at h ⊢
    exact loadCode_of_error h

end Machine

end TinyIsa
