import Mathlib
import TinyIsa.Console.Terminal
import TinyIsa.Proofs.Text.Number
import TinyIsa.Text.Blank

/-!
# The cursor of the console

The console follows the visible characters that it writes, so as to know whether its cursor is at
the start of a line. A text keeps it in step when its escape sequences are closed: then the last
character is what is seen last.

* `Closed`: the texts whose escape sequences are closed; `visible_append`: what is seen of one
  text behind another.
* `lineStart_print`: a closed text and a newline take the cursor to the start of a line.
* `Terminal.stdout_input`, `stdout_output`, `stdout_halt`, `stdout_alert`: what the terminal
  writes to the standard output; apart from output this is the end of a line that was not ended.
-/

namespace TinyIsa

/-! ### Escape sequences -/

/-- Every escape sequence of a text is closed. -/
def Closed (s : List Char) : Prop := (s.foldl Scan.read {}).inEscape = false

/-- What was seen before has no part in what is seen next. -/
theorem foldl_read (s : List Char) (start : Scan) : s.foldl Scan.read start =
    ⟨(s.foldl Scan.read ⟨start.inEscape, []⟩).inEscape,
      (s.foldl Scan.read ⟨start.inEscape, []⟩).seen ++ start.seen⟩ := by
  have hread : ∀ (c : Char) (start : Scan), start.read c =
      ⟨(Scan.read ⟨start.inEscape, []⟩ c).inEscape,
        (Scan.read ⟨start.inEscape, []⟩ c).seen ++ start.seen⟩ := by
    intro c start
    unfold Scan.read
    by_cases h : start.inEscape = true
    · simp [h]
    · by_cases hc : c = escape
      · simp [h, hc]
      · simp [h, hc]
  induction s generalizing start with
  | nil => rfl
  | cons c s ih =>
    have h1 := ih (start.read c)
    have h2 := ih (Scan.read ⟨start.inEscape, []⟩ c)
    rw [List.foldl_cons, List.foldl_cons, h1, h2, hread c start]
    simp

/-- A text behind a closed one is read from the beginning. -/
theorem foldl_read_append {s : List Char} (h : Closed s) (t : List Char) :
    (s ++ t).foldl Scan.read {} =
      ⟨(t.foldl Scan.read {}).inEscape, (t.foldl Scan.read {}).seen ++ (s.foldl Scan.read {}).seen⟩ := by
  rw [List.foldl_append, foldl_read, h]

theorem visible_append {s : List Char} (h : Closed s) (t : List Char) :
    visible (s ++ t) = visible s ++ visible t := by
  unfold visible
  rw [foldl_read_append h, List.reverse_append]

theorem closed_append_iff {s : List Char} (h : Closed s) (t : List Char) : Closed (s ++ t) ↔ Closed t := by
  unfold Closed
  rw [foldl_read_append h]

theorem Closed.append {s t : List Char} (h : Closed s) (ht : Closed t) : Closed (s ++ t) :=
  (closed_append_iff h t).2 ht

/-- A text without an escape character is closed. -/
theorem closed_of_not_mem {s : List Char} (h : escape ∉ s) : Closed s := by
  induction s with
  | nil => rfl
  | cons c s ih =>
    rw [List.mem_cons, not_or] at h
    have hc : Closed [c] := by
      unfold Closed
      simp [Scan.read, Ne.symm h.1]
    exact hc.append (ih h.2)

/-- Characters that neither open nor close a sequence make no difference at the end of a text. -/
theorem closed_append_neutral {t : List Char} (ht : ∀ c ∈ t, c ≠ escape ∧ c ≠ 'm') (s : List Char) :
    Closed (s ++ t) ↔ Closed s := by
  have hread : ∀ (start : Scan) (c : Char), c ≠ escape → c ≠ 'm' →
      (start.read c).inEscape = start.inEscape := by
    intro start c h1 h2
    unfold Scan.read
    by_cases h : start.inEscape = true
    · simp [h, h2]
    · simp [h, h1]
  have key : ∀ (t : List Char) (start : Scan), (∀ c ∈ t, c ≠ escape ∧ c ≠ 'm') →
      (t.foldl Scan.read start).inEscape = start.inEscape := by
    intro t
    induction t with
    | nil => intro start _; rfl
    | cons c t ih =>
      intro start ht
      obtain ⟨hc, ht⟩ := List.forall_mem_cons.1 ht
      rw [List.foldl_cons, ih _ ht, hread start c hc.1 hc.2]
  unfold Closed
  rw [List.foldl_append, key t _ ht]

/-- A closed text is closed without such characters at its end. -/
theorem Closed.rdropWhile {s : List Char} (h : Closed s) {p : Char → Bool}
    (hp : ∀ c, p c = true → c ≠ escape ∧ c ≠ 'm') : Closed (s.reverse.dropWhile p).reverse := by
  have hsplit : s = (s.reverse.dropWhile p).reverse ++ (s.reverse.takeWhile p).reverse := by
    rw [← List.reverse_append, List.takeWhile_append_dropWhile, List.reverse_reverse]
  rw [hsplit] at h
  refine (closed_append_neutral ?_ _).1 h
  intro c hc
  exact hp c (List.mem_takeWhile_imp (List.mem_reverse.1 hc))

theorem Closed.trim {s : List Char} (h : Closed s) : Closed (Text.trim s) := by
  have hblank : ∀ c, Text.isBlank c = true → c ≠ escape ∧ c ≠ 'm' := by
    intro c hc
    constructor <;> rintro rfl <;> exact absurd hc (by decide)
  have hstart : Closed (Text.trimStart s) := by
    have hfront : Closed (s.takeWhile Text.isBlank) := by
      refine closed_of_not_mem fun hmem => ?_
      exact (hblank _ (List.mem_takeWhile_imp hmem)).1 rfl
    refine (closed_append_iff hfront _).1 ?_
    unfold Text.trimStart
    rw [List.takeWhile_append_dropWhile]
    exact h
  exact hstart.rdropWhile hblank

theorem Closed.stripEnding {line : String} (h : Closed line.toList) :
    Closed (Terminal.stripEnding line).toList := by
  unfold Terminal.stripEnding
  rw [String.toList_ofList]
  refine h.rdropWhile fun c hc => ?_
  constructor <;> rintro rfl <;> exact absurd hc (by decide)

theorem closed_intercalate {separator : String} (hs : Closed separator.toList) {texts : List String}
    (h : ∀ text ∈ texts, Closed text.toList) : Closed (separator.intercalate texts).toList := by
  induction texts with
  | nil => exact closed_of_not_mem (by simp)
  | cons text texts ih =>
    obtain ⟨ht, hrest⟩ := List.forall_mem_cons.1 h
    cases texts with
    | nil => rw [String.intercalate_singleton]; exact ht
    | cons next texts =>
      rw [String.intercalate_cons_cons, String.toList_append, String.toList_append]
      exact (ht.append hs).append (ih hrest)

theorem closed_padLeft (width : ℕ) {text : String} (h : Closed text.toList) :
    Closed (Console.padLeft width text).toList := by
  have hspaces : Closed (List.replicate (width - text.toList.length) ' ') := by
    refine closed_of_not_mem fun hmem => ?_
    exact absurd (List.eq_of_mem_replicate hmem) (by decide)
  unfold Console.padLeft
  rw [String.toList_ofList]
  exact hspaces.append h

theorem closed_of_isDigit {s : List Char} (h : ∀ c ∈ s, c.isDigit = true) : Closed s :=
  closed_of_not_mem fun hmem => absurd (h escape hmem) (by decide)

theorem closed_decimal (v : ℤ) : Closed (Text.decimal v).toList := by
  have hdigits : Closed (Nat.toDigits 10 v.natAbs) :=
    closed_of_isDigit fun c => Text.isDigit_of_mem_toDigits
  rw [Text.decimal_toList]
  by_cases hv : v < 0
  · rw [if_pos hv]
    exact Closed.append (s := ['-']) rfl hdigits
  · rw [if_neg hv]
    exact hdigits

/-! ### Writing -/

namespace Console

variable (c : Console)

theorem textOf_write (d e : Destination) (text : String) :
    (c.write d text).textOf e = if d = e then c.textOf e ++ text else c.textOf e := by
  unfold textOf write
  simp only [Array.foldl_push]

@[simp] theorem stdout_write_output (text : String) : (c.write .output text).stdout = c.stdout ++ text :=
  c.textOf_write .output .output text

@[simp] theorem stdout_write_diagnostics (text : String) : (c.write .diagnostics text).stdout = c.stdout :=
  c.textOf_write .diagnostics .output text

theorem follow_eq (text : String) : ∃ start, c.follow text = { c with lineStart := start } := by
  unfold follow
  cases (visible text.toList).getLast? with
  | none => exact ⟨c.lineStart, rfl⟩
  | some last => exact ⟨last == '\n', rfl⟩

@[simp] theorem stdout_follow (text : String) : (c.follow text).stdout = c.stdout := by
  obtain ⟨start, h⟩ := c.follow_eq text
  rw [h]
  rfl

@[simp] theorem minimal_follow (text : String) : (c.follow text).minimal = c.minimal := by
  obtain ⟨start, h⟩ := c.follow_eq text
  rw [h]

/-- The last character of a text behind a closed one is the last one that is seen. -/
theorem lineStart_follow {text : String} (ht : Closed text.toList) (last : Char) (hl : last ≠ escape) :
    (c.follow (text ++ String.singleton last)).lineStart = (last == '\n') := by
  have hlast : visible [last] = [last] := by
    unfold visible
    simp [Scan.read, hl]
  have hseen : (visible (text ++ String.singleton last).toList).getLast? = some last := by
    rw [String.toList_append, String.toList_singleton, visible_append ht, hlast, List.getLast?_concat]
  unfold follow
  rw [hseen]

@[simp] theorem stdout_print_normal (text : String) : (c.print .normal text).stdout = c.stdout ++ text := by
  unfold print
  simp

/-- Diagnostics do not reach the standard output. -/
theorem stdout_print {channel : Channel} (hc : channel ≠ .normal) (text : String) :
    (c.print channel text).stdout = c.stdout := by
  unfold print
  cases channel with
  | normal => exact absurd rfl hc
  | always => cases c.minimal <;> simp
  | sometimes => cases c.minimal <;> simp

@[simp] theorem minimal_print (channel : Channel) (text : String) :
    (c.print channel text).minimal = c.minimal := by
  unfold print
  cases channel <;> cases hm : c.minimal <;> simp [write, hm]

/-- **A closed text and a newline take the cursor to the start of a line**, or leave it there. -/
theorem lineStart_print (text : String) (ht : Closed text.toList) {channel : Channel}
    (hc : channel = .sometimes → c.lineStart = true) :
    (c.print channel (text ++ "\n")).lineStart = true := by
  have hfollow : ∀ c : Console, (c.follow (text ++ "\n")).lineStart = true :=
    fun c => c.lineStart_follow ht '\n' (by decide)
  unfold print
  cases channel with
  | normal => exact hfollow _
  | always => cases c.minimal <;> exact hfollow _
  | sometimes =>
    cases c.minimal with
    | false => exact hfollow _
    | true => exact hc rfl

/-- What the standard output gets when a new line is begun. -/
def rest : String := if c.lineStart then "" else "\n"

theorem stdout_startLine : (c.startLine .normal).stdout = c.stdout ++ c.rest := by
  unfold startLine rest
  cases c.lineStart <;> simp

@[simp] theorem minimal_startLine (channel : Channel) : (c.startLine channel).minimal = c.minimal := by
  unfold startLine
  cases c.lineStart <;> simp

theorem lineStart_startLine : (c.startLine .normal).lineStart = true := by
  unfold startLine
  by_cases h : c.lineStart = true
  · rw [if_pos h]; exact h
  · rw [if_neg h]
    exact c.lineStart_print "" rfl (by simp)

theorem startLine_of_lineStart {c : Console} (h : c.lineStart = true) (channel : Channel) :
    c.startLine channel = c := if_pos h

theorem status_eq (codes word rest : String) : c.status codes word rest = c ∨
    ∃ text, c.status codes word rest = c.write .diagnostics text := by
  unfold status
  by_cases h : c.minimal = true
  · rw [if_pos h]; exact Or.inl rfl
  · rw [if_neg h]; exact Or.inr ⟨_, rfl⟩

@[simp] theorem stdout_status (codes word rest : String) : (c.status codes word rest).stdout = c.stdout := by
  rcases c.status_eq codes word rest with h | ⟨text, h⟩ <;> simp [h]

@[simp] theorem lineStart_status (codes word rest : String) :
    (c.status codes word rest).lineStart = c.lineStart := by
  rcases c.status_eq codes word rest with h | ⟨text, h⟩ <;> simp [h, write]

@[simp] theorem minimal_status (codes word rest : String) :
    (c.status codes word rest).minimal = c.minimal := by
  rcases c.status_eq codes word rest with h | ⟨text, h⟩ <;> simp [h, write]

end Console

/-! ### The terminal -/

namespace Terminal

variable (t : Terminal)

theorem closed_alertText (color : Bool) {message : String} (h : Closed message.toList) :
    ∃ text, alertText color message = text ++ "\n" ∧ Closed text.toList := by
  have hpaint : Closed (paint color boldRed "Alert:").toList := by
    unfold Closed
    cases color <;> decide
  have hblank : Closed " ".toList := closed_of_not_mem (by decide)
  refine ⟨paint color boldRed "Alert:" ++ " " ++ message, rfl, ?_⟩
  rw [String.toList_append, String.toList_append]
  exact (hpaint.append hblank).append h

/-- A prompt leaves the cursor behind it, unless it is not shown. -/
theorem lineStart_prompt {c : Console} (hc : c.lineStart = true) {text : String} (h : Closed text.toList) :
    (prompt c text).lineStart = c.minimal := by
  have hprompt : Closed (text ++ ">").toList := by
    rw [String.toList_append]
    exact h.append rfl
  have hsplit : text ++ "> " = text ++ ">" ++ String.singleton ' ' := by
    rw [String.append_assoc]
    rfl
  unfold prompt
  rw [Console.startLine_of_lineStart hc, hsplit]
  unfold Console.print
  cases hm : c.minimal with
  | false => exact Console.lineStart_follow _ hprompt ' ' (by decide)
  | true => exact hc

theorem stdout_prompt (c : Console) (text : String) : (prompt c text).stdout = c.stdout ++ c.rest := by
  unfold prompt
  rw [Console.stdout_print _ (by simp), Console.stdout_startLine]

@[simp] theorem minimal_prompt (c : Console) (text : String) : (prompt c text).minimal = c.minimal := by
  unfold prompt
  simp

theorem stdout_input (text : String) :
    (input text t).2.console.stdout = t.console.stdout ++ t.console.rest := by
  obtain ⟨console, lines, alerts⟩ := t
  rcases lines with _ | ⟨_ | line, lines⟩ <;> exact stdout_prompt console text

@[simp] theorem minimal_input (text : String) : (input text t).2.console.minimal = t.console.minimal := by
  obtain ⟨console, lines, alerts⟩ := t
  rcases lines with _ | ⟨_ | line, lines⟩ <;> exact minimal_prompt console text

theorem lines_input (text : String) : (input text t).2.lines = t.lines.tail := by
  obtain ⟨console, lines, alerts⟩ := t
  rcases lines with _ | ⟨_ | line, lines⟩ <;> rfl

/-- Without an answer the cursor stays behind the prompt. -/
theorem lineStart_input_none {t : Terminal} {text : String} (h : (input text t).1 = none)
    (hstart : t.console.lineStart = true) (ht : Closed text.toList) :
    (input text t).2.console.lineStart = t.console.minimal := by
  obtain ⟨console, lines, alerts⟩ := t
  rcases lines with _ | ⟨_ | line, lines⟩
  · exact lineStart_prompt hstart ht
  · exact lineStart_prompt hstart ht
  · simp [input] at h

theorem stdout_output (text : String) :
    (output text t).console.stdout = t.console.stdout ++ (text ++ "\n") := by
  unfold output
  simp [String.append_assoc]

theorem lineStart_output (text : String) : (output text t).console.lineStart = true :=
  Console.lineStart_print _ "" rfl (by simp)

@[simp] theorem minimal_output (text : String) : (output text t).console.minimal = t.console.minimal := by
  unfold output
  simp

theorem stdout_halt : (halt t).console.stdout = t.console.stdout ++ t.console.rest := by
  unfold halt
  simp only
  rw [Console.stdout_print _ (by simp), Console.stdout_startLine]

theorem lineStart_halt : (halt t).console.lineStart = true :=
  Console.lineStart_print _ "Halted" (closed_of_not_mem (by decide))
    fun _ => Console.lineStart_startLine _

@[simp] theorem minimal_halt : (halt t).console.minimal = t.console.minimal := by
  unfold halt
  simp

theorem stdout_alert (message : String) :
    (alert message t).console.stdout = t.console.stdout ++ t.console.rest := by
  unfold alert
  simp only
  rw [Console.stdout_print _ (by simp), Console.stdout_startLine]

theorem lineStart_alert {message : String} (h : Closed message.toList) :
    (alert message t).console.lineStart = true := by
  obtain ⟨text, ht, hclosed⟩ := closed_alertText t.console.color h
  unfold alert
  simp only
  rw [ht]
  exact Console.lineStart_print _ _ hclosed (by simp)

@[simp] theorem minimal_alert (message : String) : (alert message t).console.minimal = t.console.minimal := by
  unfold alert
  simp

end Terminal

end TinyIsa
