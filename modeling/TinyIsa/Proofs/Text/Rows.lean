import Mathlib
import TinyIsa.Text.Blank
import TinyIsa.Text.Lines

/-!
# Blanks and rows

* `trimStart_trimEnd`: the two ends of a text are trimmed in either order.
* `trimEnd_append_cons`: trimming the end stops at the last character that is no blank.
* `trim_between`, `visible_around`: the blanks that are not trimmed are those between other characters.
* `takeWhile_bne`, `dropWhile_bne`: a text at the first of its marks.
* `flatten_splitOnP`, `of_mem_splitOnP`: the pieces of a list have its elements, but for those that
  separate them.
* `rows_unrows`: texts put together as rows have the rows of each, one text after the other.
* `rows_ended`: texts with a newline behind each are the rows.
* `unrows_append_cons`: where a row stands among those that are put together.
-/

namespace TinyIsa.Text

/-! ### Blanks -/

theorem trimStart_cons {c : Char} (h : isBlank c = false) (s : List Char) :
    trimStart (c :: s) = c :: s :=
  List.dropWhile_cons_of_neg (by simp [h])

theorem trimStart_append_cons {c : Char} (h : isBlank c = false) (s t : List Char) :
    trimStart (s ++ c :: t) = trimStart s ++ c :: t := by
  induction s with
  | nil => exact trimStart_cons h t
  | cons x s ih =>
    unfold trimStart at ih ⊢
    rw [List.cons_append, List.dropWhile_cons, List.dropWhile_cons, ih]
    split <;> rfl

/-- **Trimming the end stops at a character that is no blank.** -/
theorem trimEnd_append_cons {c : Char} (h : isBlank c = false) (s t : List Char) :
    trimEnd (s ++ c :: t) = s ++ c :: trimEnd t := by
  have hc : (c :: s.reverse).dropWhile isBlank = c :: s.reverse :=
    List.dropWhile_cons_of_neg (by simp [h])
  have hreverse : (s ++ c :: t).reverse = t.reverse ++ (c :: s.reverse) := by simp
  unfold trimEnd
  rw [hreverse, List.dropWhile_append, hc]
  by_cases ht : (t.reverse.dropWhile isBlank).isEmpty = true
  · rw [if_pos ht, List.isEmpty_iff.1 ht]
    simp
  · rw [if_neg ht]
    simp

theorem trimEnd_cons {c : Char} (h : isBlank c = false) (t : List Char) :
    trimEnd (c :: t) = c :: trimEnd t :=
  trimEnd_append_cons h [] t

theorem trimEnd_of_forall {s : List Char} (h : ∀ c ∈ s, isBlank c = false) : trimEnd s = s := by
  induction s with
  | nil => rfl
  | cons c s ih =>
    rw [trimEnd_cons (h c List.mem_cons_self), ih fun c' hc' => h c' (List.mem_cons_of_mem c hc')]

/-- A text that does not end with a blank is not trimmed, whatever stands in front of it. -/
theorem trimEnd_append {s t : List Char} (h : trimEnd t = t) (ht : t ≠ []) : trimEnd (s ++ t) = s ++ t := by
  refine List.rdropWhile_eq_self_iff.2 fun hne => ?_
  rw [List.getLast_append_of_ne_nil hne ht]
  exact List.rdropWhile_eq_self_iff.1 h ht

theorem trimEnd_concat {c : Char} (h : isBlank c = true) (s : List Char) :
    trimEnd (s ++ [c]) = trimEnd s :=
  List.rdropWhile_concat_pos isBlank s c h

theorem exists_trimStart (s : List Char) :
    ∃ lead, s = lead ++ trimStart s ∧ ∀ c ∈ lead, isBlank c = true :=
  ⟨s.takeWhile isBlank, List.takeWhile_append_dropWhile.symm, fun _ => List.mem_takeWhile_imp⟩

theorem exists_trimEnd (s : List Char) :
    ∃ tail, s = trimEnd s ++ tail ∧ ∀ c ∈ tail, isBlank c = true := by
  obtain ⟨lead, hs, hlead⟩ := exists_trimStart s.reverse
  refine ⟨lead.reverse, ?_, fun c hc => hlead c (List.mem_reverse.1 hc)⟩
  have hreverse := congrArg List.reverse hs
  rwa [List.reverse_reverse, List.reverse_append] at hreverse

theorem trimStart_append_of_blank {s : List Char} (h : ∀ c ∈ s, isBlank c = true) (t : List Char) :
    trimStart (s ++ t) = trimStart t :=
  List.dropWhile_append_of_pos h

theorem trimEnd_append_of_blank {t : List Char} (h : ∀ c ∈ t, isBlank c = true) (s : List Char) :
    trimEnd (s ++ t) = trimEnd s := by
  unfold trimEnd
  rw [List.reverse_append, List.dropWhile_append_of_pos fun c hc => h c (List.mem_reverse.1 hc)]

/-- **The ends of a text are trimmed in either order.** -/
theorem trimStart_trimEnd (s : List Char) : trimStart (trimEnd s) = trimEnd (trimStart s) := by
  induction s with
  | nil => rfl
  | cons c s ih =>
    by_cases hc : isBlank c = true
    · have hstart : trimStart (c :: s) = trimStart s := List.dropWhile_cons_of_pos hc
      rw [hstart, ← ih]
      -- a blank in front goes, whether all that follows it is blank or not
      by_cases hs : trimEnd s = []
      · have hall : ∀ d ∈ c :: s, isBlank d = true := by
          rw [List.forall_mem_cons]
          exact ⟨hc, List.rdropWhile_eq_nil_iff.1 hs⟩
        have hempty : trimEnd (c :: s) = [] := List.rdropWhile_eq_nil_iff.2 hall
        rw [hempty, hs]
      · have hend : trimEnd (c :: s) = c :: trimEnd s := by
          unfold trimEnd at hs ⊢
          rw [List.reverse_cons, List.dropWhile_append, if_neg (by simpa using hs)]
          simp
        rw [hend]
        exact List.dropWhile_cons_of_pos hc
    · have hc := eq_false_of_ne_true hc
      rw [trimEnd_cons hc, trimStart_cons hc, trimStart_cons hc, trimEnd_cons hc]

theorem trimStart_trimStart (s : List Char) : trimStart (trimStart s) = trimStart s :=
  List.dropWhile_idempotent isBlank s

theorem trim_concat {c : Char} (h : isBlank c = true) (s : List Char) : trim (s ++ [c]) = trim s := by
  unfold trim
  rw [← trimStart_trimEnd, trimEnd_concat h, trimStart_trimEnd]

theorem trim_trim (s : List Char) : trim (trim s) = trim s := by
  have hend : ∀ t, trimEnd (trimEnd t) = trimEnd t := List.rdropWhile_idempotent isBlank
  unfold trim
  rw [trimStart_trimEnd, trimStart_trimStart, hend]

theorem trimStart_trim (s : List Char) : trimStart (trim s) = trim s := by
  unfold trim
  rw [trimStart_trimEnd, trimStart_trimStart]

/-- A text without blanks is trimmed, with blanks behind it or without. -/
theorem trim_append_of_blank {s t : List Char} (hs : ∀ c ∈ s, isBlank c = false)
    (ht : ∀ c ∈ t, isBlank c = true) : trim (s ++ t) = s := by
  cases s with
  | nil =>
    have hnil : trimStart t = [] := List.dropWhile_eq_nil_iff.2 ht
    unfold trim
    rw [List.nil_append, hnil]
    rfl
  | cons c s =>
    unfold trim
    rw [List.cons_append, trimStart_cons (hs c List.mem_cons_self), ← List.cons_append,
      trimEnd_append_of_blank ht, trimEnd_of_forall hs]

/-- **Between two characters that are no blanks** nothing is trimmed. -/
theorem trim_between {x y : Char} (hx : isBlank x = false) (hy : isBlank y = false) (s t u : List Char) :
    trim (s ++ x :: (t ++ y :: u)) = trimStart s ++ x :: (t ++ y :: trimEnd u) := by
  have hassoc : ∀ v w : List Char, v ++ x :: (t ++ y :: w) = (v ++ x :: t) ++ y :: w := by simp
  unfold trim
  rw [trimStart_append_cons hx, hassoc, trimEnd_append_cons hy, ← hassoc]

/-- **A blank that is left by trimming** has other characters on both sides. -/
theorem visible_around {s front back : List Char} {b : Char} (h : trim s = front ++ b :: back)
    (hb : isBlank b = true) : (∃ x ∈ front, isBlank x = false) ∧ ∃ y ∈ back, isBlank y = false := by
  have hlen : (trim s).length = front.length + (back.length + 1) := by
    rw [h, List.length_append, List.length_cons]
  -- were all blank on one side, trimming would take this one away too
  constructor
  · by_contra hfront
    push Not at hfront
    have hcut : trim s = trimStart back := by
      rw [← trimStart_trim s, h, trimStart_append_of_blank fun c hc => by simpa using hfront c hc]
      exact List.dropWhile_cons_of_pos hb
    have hle : (trimStart back).length ≤ back.length := (List.dropWhile_suffix isBlank).length_le
    rw [hcut] at hlen
    omega
  · by_contra hback
    push Not at hback
    have hall : ∀ c ∈ b :: back, isBlank c = true :=
      List.forall_mem_cons.2 ⟨hb, fun c hc => by simpa using hback c hc⟩
    have hend : trimEnd (trim s) = trim s := List.rdropWhile_idempotent isBlank _
    have hcut : trim s = trimEnd front := by
      rw [← hend, h, trimEnd_append_of_blank hall]
    have hle : (trimEnd front).length ≤ front.length := (List.rdropWhile_prefix isBlank front).length_le
    rw [hcut] at hlen
    omega

theorem trim_sublist (s : List Char) : (trim s).Sublist s :=
  (List.rdropWhile_prefix isBlank (trimStart s)).sublist.trans (List.dropWhile_suffix isBlank).sublist

theorem mem_of_mem_trim {s : List Char} {c : Char} (h : c ∈ trim s) : c ∈ s :=
  (trim_sublist s).subset h

/-! ### Marks -/

section

variable {c : Char} {s : List Char} (h : c ∉ s)

include h

theorem forall_bne : ∀ x ∈ s, (x != c) = true := fun x hx => by
  simpa using fun he : x = c => h (he ▸ hx)

/-- What stands in front of the first mark. -/
theorem takeWhile_bne (t : List Char) : (s ++ c :: t).takeWhile (· != c) = s := by
  rw [List.takeWhile_append_of_pos (forall_bne h), List.takeWhile_cons_of_neg (by simp), List.append_nil]

/-- What is left at the first mark. -/
theorem dropWhile_bne (t : List Char) : (s ++ c :: t).dropWhile (· != c) = c :: t := by
  rw [List.dropWhile_append_of_pos (forall_bne h), List.dropWhile_cons_of_neg (by simp)]

end

/-! ### Rows -/

theorem flatten_splitOnP {α : Type} (p : α → Bool) (l : List α) :
    (l.splitOnP p).flatten = l.filter (!p ·) := by
  induction l with
  | nil => rfl
  | cons x l ih =>
    rw [List.splitOnP_cons_eq_if_modifyHead]
    by_cases hx : p x = true
    · rw [if_pos hx, List.flatten_cons, List.nil_append, ih, List.filter_cons_of_neg (by simp [hx])]
    · -- the first piece of the rest goes on with one more element in front
      rw [if_neg hx, List.filter_cons_of_pos (by simp [hx]), ← ih]
      obtain ⟨first, rest, hsplit⟩ := List.exists_cons_of_ne_nil (List.splitOnP_ne_nil p l)
      rw [hsplit]
      rfl

/-- **A piece** has elements of the list, but none that separates pieces. -/
theorem of_mem_splitOnP {α : Type} {p : α → Bool} {l piece : List α} (h : piece ∈ l.splitOnP p) {x : α}
    (hx : x ∈ piece) : x ∈ l ∧ p x = false := by
  have hmem : x ∈ l.filter (!p ·) := flatten_splitOnP p l ▸ List.mem_flatten.2 ⟨piece, h, hx⟩
  simpa using List.mem_filter.1 hmem

theorem not_mem_of_mem_rows {s row : List Char} (h : row ∈ rows s) : '\n' ∉ row := by
  intro hmem
  unfold rows at h
  rw [List.splitOn_eq_splitOnP] at h
  exact absurd (of_mem_splitOnP h hmem).2 (by simp)

theorem rows_of_not_mem {s : List Char} (h : '\n' ∉ s) : rows s = [s] := List.splitOn_eq_singleton h

theorem rows_append (s t : List Char) : rows (s ++ '\n' :: t) = rows s ++ rows t :=
  List.splitOn_append_cons_self s t

theorem unrows_cons_cons (s t : List Char) (rest : List (List Char)) :
    unrows (s :: t :: rest) = s ++ '\n' :: unrows (t :: rest) := by
  unfold unrows
  rw [List.intercalate_cons_cons, List.append_assoc]
  rfl

theorem unrows_singleton (s : List Char) : unrows [s] = s := List.intercalate_singleton

/-- **Texts put together as rows** have the rows of each. -/
theorem rows_unrows {texts : List (List Char)} (h : texts ≠ []) :
    rows (unrows texts) = texts.flatMap rows := by
  induction texts with
  | nil => exact absurd rfl h
  | cons s texts ih =>
    cases texts with
    | nil => rw [unrows_singleton, List.flatMap_cons, List.flatMap_nil, List.append_nil]
    | cons t rest =>
      rw [unrows_cons_cons, rows_append, ih (List.cons_ne_nil t rest)]
      rfl

/-- **Rows that are ended**, one after the other, are read again, with an empty one behind the last. -/
theorem rows_ended {texts : List (List Char)} (h : ∀ text ∈ texts, '\n' ∉ text) :
    rows (texts.flatMap (· ++ ['\n'])) = texts ++ [[]] := by
  induction texts with
  | nil => rfl
  | cons text texts ih =>
    obtain ⟨htext, hrest⟩ := List.forall_mem_cons.1 h
    rw [List.flatMap_cons, List.append_assoc, List.singleton_append, rows_append, rows_of_not_mem htext, ih hrest]
    rfl

/-- A text with one row has no newline. -/
theorem not_mem_of_rows {s text : List Char} (h : rows s = [text]) : '\n' ∉ s := by
  have hs : ['\n'].intercalate (rows s) = s := List.intercalate_splitOn '\n'
  rw [h, List.intercalate_singleton] at hs
  have hmem : text ∈ rows s := h ▸ List.mem_singleton_self text
  rw [← hs]
  exact not_mem_of_mem_rows hmem

/-- The rows behind the first one have a newline in front. -/
theorem unrows_cons (row : List Char) (back : List (List Char)) :
    unrows (row :: back) = row ++ back.flatMap ('\n' :: ·) := by
  induction back generalizing row with
  | nil => rw [unrows_singleton, List.flatMap_nil, List.append_nil]
  | cons next back ih => rw [unrows_cons_cons, ih, List.flatMap_cons, List.cons_append]

/-- **A row among others** stands behind those in front of it and their newlines. -/
theorem unrows_append_cons (front : List (List Char)) (row : List Char) (back : List (List Char)) :
    unrows (front ++ row :: back) = front.flatMap (· ++ ['\n']) ++ (row ++ back.flatMap ('\n' :: ·)) := by
  induction front with
  | nil => exact unrows_cons row back
  | cons first front ih =>
    have hfirst : unrows (first :: (front ++ row :: back)) = first ++ '\n' :: unrows (front ++ row :: back) := by
      cases front with
      | nil => exact unrows_cons_cons first row back
      | cons next front => exact unrows_cons_cons first next (front ++ row :: back)
    rw [List.cons_append, hfirst, ih, List.flatMap_cons, List.append_assoc, List.append_assoc]
    rfl

/-- A row without its carriage return. -/
theorem dropCarriage_cases (row : List Char) :
    dropCarriage row = row ∨ row = dropCarriage row ++ ['\r'] := by
  unfold dropCarriage
  by_cases h : row.getLast? = some '\r'
  · rw [if_pos h]
    exact Or.inr (List.dropLast_append_getLast? '\r' h).symm
  · rw [if_neg h]
    exact Or.inl rfl

theorem mem_of_mem_dropCarriage {row : List Char} {c : Char} (h : c ∈ dropCarriage row) : c ∈ row := by
  rcases dropCarriage_cases row with hsame | hrow
  · exact hsame ▸ h
  · rw [hrow]
    exact List.mem_append_left _ h

theorem not_mem_of_mem_lines {s line : List Char} (h : line ∈ lines s) : '\n' ∉ line := by
  unfold lines at h
  rcases List.mem_append.1 h with h | h
  · obtain ⟨row, hrow, rfl⟩ := List.mem_map.1 h
    intro hmem
    exact not_mem_of_mem_rows (List.mem_of_mem_dropLast hrow) (mem_of_mem_dropCarriage hmem)
  · have hlast := Option.mem_toList.1 (List.mem_of_mem_filter h)
    exact not_mem_of_mem_rows (List.mem_of_getLast? hlast)

end TinyIsa.Text
