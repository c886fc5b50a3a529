import Mathlib
import TinyIsa.Proofs.Console.Cursor

/-!
# The start of a line

Two streams share the cursor of a console. Of all the texts that reach one of them what is seen last
decides whether the cursor is at the start of a line: an escape sequence is not seen, whether it is
closed or lasts to the end of its text, and a text that is left out has no part in it.

* `not_mem_visible`, `visible_visible`: what is seen has no escape sequences.
* `visible_paint`: **a text in a style is seen as the text itself**, whatever sequences it has;
  `closed_paint`: and it leaves no sequence open.
* `Console.drops`: which channels are left out; `Console.print_cases`: what a console does with a text.
* `Console.Call`, `Console.emitted`: the calls on a console, and the texts that a list of calls emits.
* `Console.follows_call`: what one call does to the flag; `Console.follows_calls`: what all of them do.
* `Console.lineStart_tracks`: **the flag tracks the cursor.**
-/

namespace TinyIsa

/-! ### What is seen of a text -/

/-- Nothing that is seen is an escape character, if nothing was before. -/
theorem not_mem_foldl_read (s : List Char) (start : Scan) (h : escape ∉ start.seen) :
    escape ∉ (s.foldl Scan.read start).seen := by
  induction s generalizing start with
  | nil => exact h
  | cons c s ih =>
    rw [List.foldl_cons]
    apply ih
    unfold Scan.read
    by_cases hopen : start.inEscape = true
    · rw [if_pos hopen]
      exact h
    · rw [if_neg hopen]
      by_cases hc : c = escape
      · rw [if_pos hc]
        exact h
      · rw [if_neg hc, List.mem_cons, not_or]
        exact ⟨Ne.symm hc, h⟩

theorem not_mem_visible (s : List Char) : escape ∉ visible s := by
  unfold visible
  rw [List.mem_reverse]
  exact not_mem_foldl_read s {} List.not_mem_nil

theorem visible_cons {c : Char} (h : c ≠ escape) (s : List Char) : visible (c :: s) = c :: visible s := by
  have hclosed : Closed [c] := closed_of_not_mem (by simpa using h.symm)
  have hseen : visible [c] = [c] := by
    unfold visible
    simp [Scan.read, h]
  have happend : visible ([c] ++ s) = visible [c] ++ visible s := visible_append hclosed s
  rw [hseen] at happend
  exact happend

/-- A text without an escape character is seen as it is. -/
theorem visible_of_not_mem {s : List Char} (h : escape ∉ s) : visible s = s := by
  induction s with
  | nil => rfl
  | cons c s ih =>
    rw [List.mem_cons, not_or] at h
    rw [visible_cons (Ne.symm h.1), ih h.2]

theorem visible_visible (s : List Char) : visible (visible s) = visible s :=
  visible_of_not_mem (not_mem_visible s)

/-- The end of all styles closes a sequence that is open, and is not seen. -/
theorem foldl_read_reset (start : Scan) : resetSequence.foldl Scan.read start = ⟨false, start.seen⟩ := by
  obtain ⟨inEscape, seen⟩ := start
  cases inEscape <;> rfl

/-- A style is closed by its last character, whatever its codes are. -/
theorem closed_styleSequence (codes : String) : Closed (styleSequence codes) := by
  have hlast : ∀ start : Scan, (start.read 'm').inEscape = false := by
    rintro ⟨inEscape, seen⟩
    cases inEscape <;> rfl
  unfold Closed styleSequence
  rw [List.foldl_append]
  exact hlast _

section

variable {style : List Char} (hs : Closed style) (hv : visible style = [])

include hs hv

/-- A style is not seen. -/
theorem foldl_read_style (seen : List Char) : style.foldl Scan.read ⟨false, seen⟩ = ⟨false, seen⟩ := by
  have hnone : (style.foldl Scan.read {}).seen = [] := List.reverse_eq_nil_iff.1 hv
  have hclosed : (style.foldl Scan.read ⟨false, []⟩).inEscape = false := hs
  have hempty : (style.foldl Scan.read ⟨false, []⟩).seen = [] := hnone
  rw [foldl_read, hclosed, hempty, List.nil_append]

/-- **A style that is put again behind every end of styles** is not seen: it stands where no sequence is open. -/
theorem foldl_read_reopen (done s : List Char) (start : Scan) :
    (reopen style done s).foldl Scan.read start = (done.reverse ++ s).foldl Scan.read start := by
  fun_induction reopen style done s with
  | case1 done s ih =>
    have hsplit : done.reverse ++ '\x1b' :: '[' :: '0' :: 'm' :: s = done.reverse ++ (resetSequence ++ s) := rfl
    have hreset : ∀ scan : Scan, (resetSequence ++ (style ++ s)).foldl Scan.read scan =
        (resetSequence ++ s).foldl Scan.read scan := by
      intro scan
      rw [List.foldl_append, List.foldl_append, foldl_read_reset, foldl_read_style hs hv, List.foldl_append,
        foldl_read_reset]
    rw [ih, hsplit, List.foldl_append (l := done.reverse), ← hreset, ← List.foldl_append]
    simp only [List.reverse_append, List.reverse_reverse, List.append_assoc]
  | case2 done c s hno ih =>
    rw [ih, List.reverse_cons, List.append_assoc]
    rfl
  | case3 done => rw [List.append_nil]

theorem visible_style_reopen (s : List Char) : visible (style ++ reopen style [] s ++ resetSequence) = visible s := by
  have hstyle : style.foldl Scan.read {} = {} := foldl_read_style hs hv []
  unfold visible
  rw [List.foldl_append, List.foldl_append, foldl_read_reset, foldl_read_reopen hs hv, hstyle]
  rfl

end

/-- **A text in a style is seen as the text itself.** -/
theorem visible_paint (on : Bool) {codes : String} (hv : visible (styleSequence codes) = []) (text : String) :
    visible (paint on codes text).toList = visible text.toList := by
  unfold paint
  cases on with
  | false => rfl
  | true =>
    simp only [if_true, String.toList_ofList]
    exact visible_style_reopen (closed_styleSequence codes) hv text.toList

/-- The end of all styles closes a text in a style. -/
theorem closed_paint (on : Bool) (codes : String) {text : String} (h : Closed text.toList) :
    Closed (paint on codes text).toList := by
  unfold paint
  cases on with
  | false => exact h
  | true =>
    simp only [if_true, String.toList_ofList]
    unfold Closed
    rw [List.foldl_append, foldl_read_reset]

theorem not_mem_reopen {style : List Char} {c : Char} (hstyle : c ∉ style) (hreset : c ∉ resetSequence)
    {done s : List Char} (hdone : c ∉ done) (hs : c ∉ s) : c ∉ reopen style done s := by
  fun_induction reopen style done s with
  | case1 done s ih =>
    have hfront : c ∉ style.reverse ++ resetSequence.reverse ++ done := by
      simp [hstyle, hreset, hdone]
    exact ih hfront fun hmem => hs (by simp [hmem])
  | case2 done x s hno ih =>
    rw [List.mem_cons, not_or] at hs
    have hfront : c ∉ x :: done := by
      simp [hs.1, hdone]
    exact ih hfront hs.2
  | case3 done => exact fun hmem => hdone (List.mem_reverse.1 hmem)

/-- A text in a style has its own characters and those of escape sequences. -/
theorem not_mem_paint (on : Bool) {codes text : String} {c : Char} (hstyle : c ∉ styleSequence codes)
    (hreset : c ∉ resetSequence) (h : c ∉ text.toList) : c ∉ (paint on codes text).toList := by
  unfold paint
  cases on with
  | false => exact h
  | true =>
    simp only [if_true, String.toList_ofList, List.mem_append, not_or]
    exact ⟨⟨hstyle, not_mem_reopen hstyle hreset List.not_mem_nil h⟩, hreset⟩

/-! ### What a console does with a text -/

/-- The stream of a channel. -/
def Channel.destination : Channel → Destination
  | .normal => .output
  | .always => .diagnostics
  | .sometimes => .diagnostics

namespace Console

/-- Whether the texts of a channel are left out. -/
def drops (c : Console) (channel : Channel) : Bool := c.minimal && decide (channel = .sometimes)

/-- **What a console does with a text**: it leaves it out, or it writes what is seen as this text to the
stream of the channel and moves its cursor. -/
theorem print_cases (c : Console) (channel : Channel) (text : String) :
    (c.drops channel = true ∧ c.print channel text = c) ∨
    (c.drops channel = false ∧ ∃ shown : String, visible shown.toList = visible text.toList ∧
      c.print channel text = (c.write channel.destination shown).follow text) := by
  have hpainted : visible (paint c.color blue text).toList = visible text.toList :=
    visible_paint c.color (by decide) text
  have hplain : visible (String.ofList (visible text.toList)).toList = visible text.toList := by
    rw [String.toList_ofList, visible_visible]
  unfold drops print
  cases channel with
  | normal => exact .inr ⟨by simp, text, rfl, rfl⟩
  | always =>
    cases c.minimal with
    | false => exact .inr ⟨rfl, _, hpainted, rfl⟩
    | true => exact .inr ⟨rfl, _, hplain, rfl⟩
  | sometimes =>
    cases c.minimal with
    | false => exact .inr ⟨rfl, _, hpainted, rfl⟩
    | true => exact .inl ⟨rfl, rfl⟩

/-- Whether a cursor is at the start of a line when these characters were seen: the last one is a newline,
or there is none. -/
def atStart (seen : List Char) : Bool := seen.getLast?.all (· == '\n')

theorem atStart_iff {seen : List Char} :
    atStart seen = true ↔ ∀ last, seen.getLast? = some last → last = '\n' := by
  unfold atStart
  cases seen.getLast? <;> simp

/-- The cursor moves over what is seen of a text. -/
theorem lineStart_follow_of {c : Console} {seen : List Char} (h : c.lineStart = atStart seen) (text : String) :
    (c.follow text).lineStart = atStart (seen ++ visible text.toList) := by
  unfold follow
  rw [atStart, List.getLast?_append]
  cases (visible text.toList).getLast? with
  | none => exact h
  | some last => rfl

/-! ### Calls -/

/-- A call on a console: a text, the beginning of a new line, or another mode. -/
inductive Call where
  | print (channel : Channel) (text : String)
  | startLine (channel : Channel)
  | setMinimal (minimal : Bool)
deriving DecidableEq, Repr

/-- The console after a call. -/
def call (c : Console) : Call → Console
  | .print channel text => c.print channel text
  | .startLine channel => c.startLine channel
  | .setMinimal minimal => { c with minimal }

/-- The text that a call emits, unless it is left out. -/
def text? (c : Console) : Call → Option String
  | .print channel text => if c.drops channel then none else some text
  | .startLine channel => if c.lineStart || c.drops channel then none else some "\n"
  | .setMinimal _ => none

/-- The texts that calls emit, in order. -/
def emitted (c : Console) : List Call → List String
  | [] => []
  | x :: calls => (c.text? x).toList ++ (c.call x).emitted calls

/-- What is seen of texts, one after the other. -/
def seenOf (texts : List String) : List Char := texts.flatMap fun text => visible text.toList

/-- A console after some texts: they were written as they are to be seen, and the cursor moved over them. -/
structure Follows (c c' : Console) (texts : List String) : Prop where
  written : ∃ writes : List Write, c'.writes.toList = c.writes.toList ++ writes ∧
    writes.map (fun w => visible w.text.toList) = texts.map fun text => visible text.toList
  lineStart : ∀ seen, c.lineStart = atStart seen → c'.lineStart = atStart (seen ++ seenOf texts)

theorem Follows.nil {c c' : Console} (hw : c'.writes = c.writes) (hl : c'.lineStart = c.lineStart) :
    Follows c c' [] := by
  constructor
  · exact ⟨[], by rw [hw, List.append_nil], rfl⟩
  · intro seen h
    rw [hl, seenOf, List.flatMap_nil, List.append_nil]
    exact h

theorem Follows.append {c c' c'' : Console} {texts texts' : List String} (h : Follows c c' texts)
    (h' : Follows c' c'' texts') : Follows c c'' (texts ++ texts') := by
  obtain ⟨⟨writes, hwrites, hshown⟩, hl⟩ := h
  obtain ⟨⟨writes', hwrites', hshown'⟩, hl'⟩ := h'
  constructor
  · refine ⟨writes ++ writes', ?_, ?_⟩
    · rw [hwrites', hwrites, List.append_assoc]
    · rw [List.map_append, List.map_append, hshown, hshown']
  · intro seen hseen
    have hend := hl' _ (hl seen hseen)
    rw [List.append_assoc] at hend
    rw [seenOf, List.flatMap_append]
    exact hend

/-- A text that is printed is followed, unless it is left out. -/
theorem follows_print (c : Console) (channel : Channel) (text : String) :
    Follows c (c.print channel text) (if c.drops channel then none else some text : Option String).toList := by
  rcases c.print_cases channel text with ⟨hdrops, hprint⟩ | ⟨hdrops, shown, hshown, hprint⟩
  · rw [hprint, hdrops]
    exact .nil rfl rfl
  · rw [hprint, hdrops]
    have hwrites : ((c.write channel.destination shown).follow text).writes =
        c.writes.push ⟨channel.destination, shown⟩ := by
      obtain ⟨start, hfollow⟩ := (c.write channel.destination shown).follow_eq text
      rw [hfollow]
      rfl
    constructor
    · refine ⟨[⟨channel.destination, shown⟩], ?_, ?_⟩
      · rw [hwrites, Array.toList_push]
      · exact congrArg (fun s => [s]) hshown
    · intro seen h
      have hfollow := lineStart_follow_of (c := c.write channel.destination shown) h text
      rw [hfollow]
      simp [seenOf]

/-- **What one call does**: its text is written and followed, if it has one. -/
theorem follows_call (c : Console) (x : Call) : Follows c (c.call x) (c.text? x).toList := by
  cases x with
  | print channel text => exact follows_print c channel text
  | startLine channel =>
    simp only [call, text?, startLine]
    by_cases h : c.lineStart = true
    · rw [if_pos h, h]
      exact .nil rfl rfl
    · rw [if_neg h, eq_false_of_ne_true h]
      exact follows_print c channel "\n"
  | setMinimal minimal => exact .nil rfl rfl

/-- **What all calls do**, by induction on them. -/
theorem follows_calls (calls : List Call) (c : Console) : Follows c (calls.foldl call c) (c.emitted calls) := by
  induction calls generalizing c with
  | nil => exact .nil rfl rfl
  | cons x calls ih => exact (follows_call c x).append (ih (c.call x))

/-- A new line is begun by a newline that is written, unless it is begun already or left out. -/
theorem startLine_cases (c : Console) (channel : Channel) :
    ((c.lineStart = true ∨ c.drops channel = true) ∧ c.startLine channel = c) ∨
    ((c.lineStart = false ∧ c.drops channel = false) ∧ ∃ shown : String, visible shown.toList = ['\n'] ∧
      (c.startLine channel).writes = c.writes.push ⟨channel.destination, shown⟩) := by
  by_cases h : c.lineStart = true
  · exact .inl ⟨.inl h, startLine_of_lineStart h channel⟩
  · have hprint : c.startLine channel = c.print channel "\n" := if_neg h
    rw [hprint]
    rcases c.print_cases channel "\n" with ⟨hdrops, hsame⟩ | ⟨hdrops, shown, hshown, hwrite⟩
    · exact .inl ⟨.inr hdrops, hsame⟩
    · obtain ⟨start, hfollow⟩ := (c.write channel.destination shown).follow_eq "\n"
      refine .inr ⟨⟨eq_false_of_ne_true h, hdrops⟩, shown, hshown, ?_⟩
      rw [hwrite, hfollow]
      rfl

/-- **The flag tracks the cursor.** Take any texts and beginnings of lines on any of the channels, with the
mode switched in between at will, from a console whose flag is up.

* What was written on the two streams is seen as the texts that were emitted, one by one and in order.
* The flag is up exactly when the last character that is seen of these texts is a newline or there is none.
* The next beginning of a line writes a newline exactly when the flag is down and the channel is not left
  out; otherwise it does nothing. -/
theorem lineStart_tracks {c : Console} (hc : c.lineStart = true) (calls : List Call) :
    (∃ writes : List Write, (calls.foldl call c).writes.toList = c.writes.toList ++ writes ∧
      writes.map (fun w => visible w.text.toList) = (c.emitted calls).map fun text => visible text.toList) ∧
    ((calls.foldl call c).lineStart = true ↔
      ∀ last, (seenOf (c.emitted calls)).getLast? = some last → last = '\n') ∧
    ∀ channel,
      ((calls.foldl call c).lineStart = false ∧ (calls.foldl call c).drops channel = false ↔
        ∃ shown : String, visible shown.toList = ['\n'] ∧ ((calls.foldl call c).startLine channel).writes =
          (calls.foldl call c).writes.push ⟨channel.destination, shown⟩) ∧
      ((calls.foldl call c).lineStart = true ∨ (calls.foldl call c).drops channel = true →
        (calls.foldl call c).startLine channel = calls.foldl call c) := by
  obtain ⟨hwritten, hl⟩ := follows_calls calls c
  have hstart : (calls.foldl call c).lineStart = atStart (seenOf (c.emitted calls)) := by
    have hend := hl [] hc
    rwa [List.nil_append] at hend
  refine ⟨hwritten, ?_, ?_⟩
  · rw [hstart]
    exact atStart_iff
  · intro channel
    rcases (calls.foldl call c).startLine_cases channel with ⟨hno, hsame⟩ | ⟨hyes, hnewline⟩
    · refine ⟨⟨fun h => ?_, ?_⟩, fun _ => hsame⟩
      · rcases hno with hno | hno <;> simp [hno] at h
      · rintro ⟨shown, -, hwrites⟩
        have hsize := congrArg Array.size hwrites
        rw [hsame, Array.size_push] at hsize
        omega
    · refine ⟨⟨fun _ => hnewline, fun _ => hyes⟩, fun h => ?_⟩
      rcases h with h | h <;> simp [hyes] at h

/-- A sequence that stays open behind a newline, a style alone, a text that is left out, and one behind a
sequence: after the first three no line has to be begun, after the last one it has to. -/
theorem lineStart_tracks_open : ∃ (c : Console) (calls : List Call), c.lineStart = true ∧
    calls = [.print .normal "a\n\x1b[0", .print .sometimes "\x1b[2m", .setMinimal true, .print .sometimes "b",
      .startLine .always, .print .always "\x1bmc"] ∧
    c.emitted calls = ["a\n\x1b[0", "\x1b[2m", "\x1bmc"] ∧
    ((calls.take 5).foldl call c).lineStart = true ∧ (calls.foldl call c).lineStart = false ∧
    (calls.foldl call c).startLine .sometimes = calls.foldl call c ∧
    ∃ shown : String, visible shown.toList = ['\n'] ∧ ((calls.foldl call c).startLine .normal).writes =
      (calls.foldl call c).writes.push ⟨.output, shown⟩ := by
  let calls : List Call := [.print .normal "a\n\x1b[0", .print .sometimes "\x1b[2m", .setMinimal true,
    .print .sometimes "b", .startLine .always, .print .always "\x1bmc"]
  let c : Console := { color := true }
  obtain ⟨-, hearly, -⟩ := lineStart_tracks (c := c) rfl (calls.take 5)
  obtain ⟨-, hflag, hline⟩ := lineStart_tracks (c := c) rfl calls
  have hdrops : (calls.foldl call c).drops .sometimes = true ∧ (calls.foldl call c).drops .normal = false := by
    decide
  have hdown : (calls.foldl call c).lineStart = false := by
    refine eq_false_of_ne_true fun h => ?_
    exact absurd (hflag.1 h 'c' (by decide)) (by decide)
  refine ⟨c, calls, rfl, rfl, by decide, ?_, hdown, (hline .sometimes).2 (.inr hdrops.1),
    (hline .normal).1.1 ⟨hdown, hdrops.2⟩⟩
  refine hearly.2 fun last hlast => ?_
  have hseen : (seenOf (c.emitted (calls.take 5))).getLast? = some '\n' := by decide
  exact Option.some.inj (hlast.symm.trans hseen)

end Console

end TinyIsa
