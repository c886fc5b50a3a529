import Mathlib
import TinyIsa.Console.Table
import TinyIsa.Proofs.Console.LineStart

/-!
# The diagnostics in minimal mode

Minimal mode leaves nothing but alerts on the standard error, and of these what is seen.

* `Stripped`: a text without its escape sequences, as a relation; `stripped_iff`: **the console finds
  exactly the escape sequences**, closed or not, whatever stands inside of them.
* `plainAlerts`: alerts one behind another without their escape sequences; `plainAlerts_iff`: the texts that
  are these alerts.
* `Terminal.stderr_input`, `stderr_output`, `stderr_halt`, `stderr_alert`: what the terminal writes to the
  standard error in minimal mode; only for an alert this is not nothing.
-/

namespace TinyIsa

/-! ### Texts without escape sequences -/

/-- A text, and what is left of it without its escape sequences. A sequence lasts from an escape character
to the next `m`, whatever stands between them, and to the end of the text if there is none. -/
inductive Stripped : List Char → List Char → Prop where
  | nil : Stripped [] []
  | char {c : Char} {s t : List Char} : c ≠ escape → Stripped s t → Stripped (c :: s) (c :: t)
  | sequence {codes s t : List Char} : 'm' ∉ codes → Stripped s t → Stripped (escape :: (codes ++ 'm' :: s)) t
  | unclosed {codes : List Char} : 'm' ∉ codes → Stripped (escape :: codes) []

/-- An open sequence goes on over any characters but the one that closes it. -/
theorem foldl_read_open {codes : List Char} (h : 'm' ∉ codes) (seen : List Char) :
    codes.foldl Scan.read ⟨true, seen⟩ = ⟨true, seen⟩ := by
  induction codes with
  | nil => rfl
  | cons c codes ih =>
    rw [List.mem_cons, not_or] at h
    have hread : Scan.read ⟨true, seen⟩ c = ⟨true, seen⟩ := by
      simp [Scan.read, Ne.symm h.1]
    rw [List.foldl_cons, hread, ih h.2]

theorem Stripped.eq_visible {s t : List Char} (h : Stripped s t) : t = visible s := by
  have hopen : Scan.read {} escape = ⟨true, []⟩ := rfl
  induction h with
  | nil => rfl
  | char hc _ ih => rw [visible_cons hc, ih]
  | @sequence codes s t hm _ ih =>
    have hread : (escape :: (codes ++ ['m'])).foldl Scan.read {} = {} := by
      rw [List.foldl_cons, List.foldl_append, hopen, foldl_read_open hm]
      rfl
    have hsplit : escape :: (codes ++ 'm' :: s) = escape :: (codes ++ ['m']) ++ s := by simp
    rw [hsplit, visible, List.foldl_append, hread]
    exact ih
  | unclosed hm =>
    rw [visible, List.foldl_cons, hopen, foldl_read_open hm]
    rfl

/-- Every text can be stripped, by induction on the length of what is left of it. -/
theorem exists_stripped (s : List Char) : ∃ t, Stripped s t := by
  induction hn : s.length using Nat.strong_induction_on generalizing s with
  | _ n ih =>
    cases s with
    | nil => exact ⟨[], .nil⟩
    | cons c s =>
      by_cases hc : c = escape
      · subst hc
        by_cases hm : 'm' ∈ s
        · obtain ⟨codes, rest, rfl, hcodes⟩ := List.eq_append_cons_of_mem hm
          have hlt : rest.length < n := by
            rw [← hn, List.length_cons, List.length_append, List.length_cons]
            omega
          obtain ⟨t, ht⟩ := ih rest.length hlt rest rfl
          exact ⟨t, .sequence hcodes ht⟩
        · exact ⟨[], .unclosed hm⟩
      · obtain ⟨t, ht⟩ := ih s.length (hn ▸ Nat.lt_succ_self s.length) s rfl
        exact ⟨c :: t, .char hc ht⟩

/-- **What is seen of a text is the text without its escape sequences**, and no other text is. -/
theorem stripped_iff {s t : List Char} : Stripped s t ↔ t = visible s := by
  refine ⟨Stripped.eq_visible, ?_⟩
  rintro rfl
  obtain ⟨t, ht⟩ := exists_stripped s
  exact ht.eq_visible ▸ ht

/-! ### Alerts -/

/-- The line of an alert. -/
def alertLine (message : String) : List Char := ("Alert: " ++ message ++ "\n").toList

/-- What is seen of alerts, one behind another. -/
def plainAlerts (messages : List String) : List Char := messages.flatMap fun message => visible (alertLine message)

/-- A text consists of the lines of some alerts in order, each without its escape sequences. -/
def PlainAlerts (messages : List String) (text : String) : Prop :=
  ∃ lines : List (List Char), List.Forall₂ (fun message line => Stripped (alertLine message) line) messages lines ∧
    text.toList = lines.flatten

theorem plainAlerts_iff {messages : List String} {text : String} :
    PlainAlerts messages text ↔ text.toList = plainAlerts messages := by
  have hlines : ∀ lines : List (List Char),
      List.Forall₂ (fun message line => Stripped (alertLine message) line) messages lines ↔
        messages.map (fun message => visible (alertLine message)) = lines := by
    intro lines
    rw [← List.forall₂_eq_eq_eq, List.forall₂_map_left_iff]
    simp only [stripped_iff, eq_comm]
  unfold PlainAlerts plainAlerts
  simp only [hlines, exists_eq_left', List.flatMap_def]

theorem not_mem_plainAlerts (messages : List String) : escape ∉ plainAlerts messages := by
  unfold plainAlerts
  rw [List.mem_flatMap]
  rintro ⟨message, -, hmem⟩
  exact not_mem_visible _ hmem

/-- An alert is seen without its style, and with the escape sequences of its message left out. -/
theorem visible_alertText (color : Bool) (message : String) :
    visible (Terminal.alertText color message).toList = visible (alertLine message) := by
  have hclosed : Closed (paint color boldRed "Alert:").toList := closed_paint color boldRed rfl
  have hpaint : visible (paint color boldRed "Alert:").toList = visible "Alert:".toList :=
    visible_paint color (by decide) "Alert:"
  have hline : alertLine message = "Alert:".toList ++ (" " ++ message ++ "\n").toList := by
    unfold alertLine
    rw [← String.toList_append, ← String.append_assoc, ← String.append_assoc]
    rfl
  unfold Terminal.alertText
  rw [String.append_assoc, String.append_assoc, String.toList_append, visible_append hclosed, hpaint, hline,
    visible_append (s := "Alert:".toList) rfl, String.append_assoc]

/-! ### The console -/

namespace Console

variable {c : Console}

@[simp] theorem stderr_write_output (text : String) : (c.write .output text).stderr = c.stderr :=
  c.textOf_write .output .diagnostics text

@[simp] theorem stderr_write_diagnostics (text : String) : (c.write .diagnostics text).stderr = c.stderr ++ text :=
  c.textOf_write .diagnostics .diagnostics text

@[simp] theorem stderr_follow (text : String) : (c.follow text).stderr = c.stderr := by
  obtain ⟨start, h⟩ := c.follow_eq text
  rw [h]
  rfl

/-- Output does not reach the standard error. -/
@[simp] theorem stderr_print_normal (text : String) : (c.print .normal text).stderr = c.stderr := by
  unfold print
  simp

@[simp] theorem stderr_startLine_normal : (c.startLine .normal).stderr = c.stderr := by
  unfold startLine
  cases c.lineStart <;> simp

section

variable (h : c.minimal = true)

include h

theorem print_sometimes (text : String) : c.print .sometimes text = c := by
  unfold print
  simp only [h]

theorem stderr_print_always (text : String) :
    (c.print .always text).stderr = c.stderr ++ String.ofList (visible text.toList) := by
  unfold print
  simp only [h]
  rw [stderr_follow, stderr_write_diagnostics]

theorem status_of_minimal (codes word rest : String) : c.status codes word rest = c := if_pos h

/-- The registers are left out, too. -/
theorem printRegisters_sometimes (registers : Registers) : c.printRegisters .sometimes registers = c := by
  unfold printRegisters
  generalize (if c.minimal then registers.plainLines else registers.tableLines) = texts
  induction texts with
  | nil => rfl
  | cons text texts ih => rw [List.foldl_cons, print_sometimes h, ih]

end

end Console

/-! ### The terminal -/

namespace Terminal

variable {t : Terminal} (h : t.console.minimal = true)

include h

theorem stderr_input (prompt : String) : (input prompt t).2.console.stderr = t.console.stderr := by
  have hprompt : (Terminal.prompt t.console prompt).stderr = t.console.stderr := by
    unfold Terminal.prompt
    rw [Console.print_sometimes ((Console.minimal_startLine _ _).trans h), Console.stderr_startLine_normal]
  obtain ⟨console, lines, alerts⟩ := t
  rcases lines with _ | ⟨_ | line, lines⟩ <;> exact hprompt

theorem stderr_halt : (halt t).console.stderr = t.console.stderr := by
  unfold halt
  simp only
  rw [Console.print_sometimes ((Console.minimal_startLine _ _).trans h), Console.stderr_startLine_normal]

/-- **An alert is shown without escape sequences.** -/
theorem stderr_alert (message : String) : (alert message t).console.stderr =
    t.console.stderr ++ String.ofList (visible (alertLine message)) := by
  unfold alert
  simp only
  rw [Console.stderr_print_always ((Console.minimal_startLine _ _).trans h), Console.stderr_startLine_normal,
    visible_alertText]

omit h in
theorem stderr_output (text : String) : (output text t).console.stderr = t.console.stderr := by
  unfold output
  simp only
  rw [Console.stderr_print_normal, Console.stderr_print_normal]

end Terminal

end TinyIsa
