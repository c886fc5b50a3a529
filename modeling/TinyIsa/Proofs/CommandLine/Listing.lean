import Mathlib
import TinyIsa.Proofs.CommandLine.Assembled
import TinyIsa.Proofs.Console.LineStart
import TinyIsa.Proofs.Numeral
import TinyIsa.Proofs.Source.Printed

/-!
# A listing shows the memory image

The lines of a listing are made instruction by instruction, each from the digits of its own
instruction. Read as they are printed, those with an address are the words of the whole program, in
order and without a gap.

* `wordAt`: a word of the digits of a program; `wordAt_slice`: it is a word of its own instruction.
* `Instruction.shownLines`: the lines of an instruction, from the digits of the whole program;
  `listing_of_parse`: a listing consists of these.
* `ListingLine.row`, `newline_not_mem_word`, `newline_not_mem_remark`: a printed line is one row.
* `shownWord?`: the address and the word on a row, as they are seen; `shownWord?_word`,
  `shownWord?_remark`: what is seen of the two kinds of lines.
* `listing_shows_image`: **the addresses on a listing count the words of the program.**
-/

namespace TinyIsa

open InstructionSet

/-! ### Words of a text of digits -/

variable {Op : Type} [InstructionSet Op]

variable (Op) in
/-- The word of a text of digits at a position. -/
def wordAt (code : List Char) (k : ℕ) : List Char := (code.drop (k * wordSize Op)).take (wordSize Op)

theorem length_wordAt {code : List Char} {n k : ℕ} (hn : code.length = n * wordSize Op) (hk : k < n) :
    (wordAt Op code k).length = wordSize Op := by
  have hrest : (code.drop (k * wordSize Op)).length = (n - k) * wordSize Op := by
    rw [List.length_drop, hn, Nat.sub_mul]
  have hroom : wordSize Op ≤ (n - k) * wordSize Op := Nat.le_mul_of_pos_left _ (by omega)
  unfold wordAt
  rw [List.length_take, hrest, Nat.min_eq_left hroom]

theorem Binary.wordAt {code : List Char} (h : Binary code) (k : ℕ) : Binary (wordAt Op code k) :=
  (h.drop _).take _

theorem wordDigits_eq_map [Lawful Op] {code : List Char} {n : ℕ} (hn : code.length = n * wordSize Op) :
    wordDigits Op code = (List.range n).map (wordAt Op code) := by
  unfold wordDigits
  rw [hn, Nat.mul_div_cancel n Lawful.wordSize_pos, pieces_eq_map]
  rfl

/-- A word of a stretch of digits is a word of all of them. -/
theorem wordAt_slice (code : List Char) {a n k : ℕ} (hk : k < n) :
    wordAt Op ((code.drop (a * wordSize Op)).take (n * wordSize Op)) k = wordAt Op code (a + k) := by
  have hroom : wordSize Op ≤ (n - k) * wordSize Op := Nat.le_mul_of_pos_left _ (by omega)
  unfold wordAt
  rw [List.drop_take, List.take_take, List.drop_drop, ← Nat.add_mul, ← Nat.sub_mul, Nat.min_eq_left hroom]

/-! ### The lines of an instruction -/

/-- The lines of an instruction, from the digits of the whole program: those of a remark, or one for each
word, with the source on the first. -/
def Instruction.shownLines (code : List Char) (i : Instruction Op) : List ListingLine :=
  if i.body.isRemark then (Text.lines i.source.toList).map .remark
  else (List.range i.wordCount).map fun k =>
    .word (i.address.getD 0 + k) (wordAt Op code (i.address.getD 0 + k)) (if k = 0 then some i.source else none)

/-- The lines of some words count on from the first one, which has the source. -/
theorem wordLines_map (address : ℕ) (source : String) {n : ℕ} (hn : 0 < n) (word : ℕ → List Char) :
    wordLines address source ((List.range n).map word) =
      (List.range n).map fun k => .word (address + k) (word k) (if k = 0 then some source else none) := by
  obtain ⟨n, rfl⟩ := Nat.exists_eq_succ_of_ne_zero hn.ne'
  have hzip : ∀ b, (List.range n).zipIdx b = (List.range n).map fun k => (k, b + k) := by
    intro b
    refine List.ext_getElem (by simp) fun k _ _ => ?_
    simp
  -- behind the first line the count begins with the next address
  unfold wordLines
  rw [Nat.succ_eq_add_one, List.range_succ_eq_map, List.map_cons, List.map_cons, List.map_map, List.map_map,
    List.tail_cons, List.zipIdx_map, hzip, List.map_map, List.map_map]
  refine congrArg₂ List.cons rfl (List.map_congr_left fun k _ => ?_)
  change ListingLine.word (address + 1 + k) (word (k + 1)) none = .word (address + (k + 1)) (word (k + 1)) none
  rw [Nat.add_right_comm, Nat.add_assoc]

section

variable [Lawful Op] {source : List Char} {p : List (Instruction Op)} {code : List Char}
  (hp : parse source true = .ok p) (hcode : machineCode p = .ok code)

include hp hcode

/-- The digits of an instruction are those of the program from its address on. -/
theorem code_of_parse {i : Instruction Op} (hi : i ∈ p) : ∃ a, i.address = some a ∧
    i.code = .ok ((code.drop (a * wordSize Op)).take (i.wordCount * wordSize Op)) ∧
    a + i.wordCount ≤ totalWords p := by
  obtain ⟨codes, hcodes, rfl⟩ := map_eq_ok.1 hcode
  obtain ⟨k, hk⟩ := List.getElem?_of_mem hi
  obtain ⟨own, hown, hslice, hend⟩ := slice_flatten hcodes hk
  refine ⟨_, (address_of_parse hp hk).1, ?_, hend⟩
  rw [hown, hslice]

/-- **A listing consists of the lines of the instructions**, with the words of the whole program. -/
theorem listing_of_parse [Legible Op] : listing p = .ok (p.flatMap (Instruction.shownLines code)) := by
  have hentry : ∀ i ∈ p, i.listing = .ok (i.shownLines code) := by
    intro i hi
    unfold Instruction.listing Instruction.shownLines
    cases hb : i.body.isRemark with
    | true => rfl
    | false =>
      -- the words of its own digits are those of the program from its address on
      obtain ⟨a, ha, hown, -⟩ := code_of_parse hp hcode hi
      obtain ⟨hwritten, -⟩ := (readable_of_parse hp).printable.written hi hb
      have hwords := wordDigits_eq_map (code_spec hown).2
      rw [hown, ha]
      refine congrArg Except.ok ?_
      rw [hwords, wordLines_map _ _ hwritten.wordCount_pos]
      refine List.map_congr_left fun k hk => ?_
      rw [wordAt_slice code (List.mem_range.1 hk)]
      rfl
  have hall : p.mapM Instruction.listing = .ok (p.map (Instruction.shownLines code)) := by
    rw [mapM_eq_ok, List.forall₂_map_right_iff, List.forall₂_same]
    exact hentry
  exact map_eq_ok.2 ⟨_, hall, List.flatMap_def.symm⟩

end

/-! ### Printed lines -/

namespace ListingLine

/-- The row that a line is printed on. -/
def row (color : Bool) : ListingLine → List Char
  | .word address digits source => (paint color cyan (Console.padLeft 6 (hexAddress address))).toList ++
      [' ', ' '] ++ digits.leftpad 16 ' ' ++ (source.elim [] fun s => [' ', ' '] ++ s.toList)
  | .remark text => List.replicate 26 ' ' ++ (paint color dimmed (String.ofList text)).toList

theorem text_eq (color : Bool) (l : ListingLine) : (l.text color).toList = l.row color ++ ['\n'] := by
  cases l with
  | word address digits source =>
    cases source <;> simp [text, row, Console.padLeft]
  | remark text => simp [ListingLine.text, row, Console.padLeft, List.leftpad]

end ListingLine

theorem numeral_hexAddress (address : ℕ) : Literal.Numeral 16 (hexAddress address).toList address := by
  unfold hexAddress
  rw [String.toList_ofList]
  exact (Literal.numeral_toDigits (by decide) address).zeros (by decide) _

theorem length_hexAddress (address : ℕ) : 4 ≤ (hexAddress address).toList.length := by
  unfold hexAddress
  rw [String.toList_ofList, List.length_leftpad]
  exact Nat.le_max_left _ _

/-- An address has neither blanks nor newlines, and opens no escape sequence. -/
theorem not_mem_hexAddress (address : ℕ) {c : Char} (hc : c.isAlphanum = false) :
    c ∉ (hexAddress address).toList := by
  intro hmem
  rw [(numeral_hexAddress address).forall_isAlphanum c hmem] at hc
  exact absurd hc (by decide)

theorem newline_not_mem_leftpad {s : List Char} (h : '\n' ∉ s) (n : ℕ) : '\n' ∉ s.leftpad n ' ' := by
  rw [List.leftpad, List.mem_append, not_or]
  exact ⟨fun hmem => absurd (List.eq_of_mem_replicate hmem) (by decide), h⟩

/-- **A word is printed on one row.** -/
theorem newline_not_mem_word (color : Bool) (address : ℕ) {digits : List Char} (hb : Binary digits)
    {source : Option String} (hsource : ∀ s, source = some s → '\n' ∉ s.toList) :
    '\n' ∉ (ListingLine.word address digits source).row color := by
  have hcell : '\n' ∉ (paint color cyan (Console.padLeft 6 (hexAddress address))).toList := by
    refine not_mem_paint color (by decide) (by decide) ?_
    rw [Console.padLeft, String.toList_ofList]
    exact newline_not_mem_leftpad (not_mem_hexAddress address (by decide)) 6
  have hdigits := newline_not_mem_leftpad (hb.not_mem (by decide)) 16
  have htail : '\n' ∉ source.elim [] fun s => [' ', ' '] ++ s.toList := by
    cases source with
    | none => exact List.not_mem_nil
    | some s => simpa using hsource s rfl
  simp only [ListingLine.row, List.mem_append, not_or]
  exact ⟨⟨⟨hcell, by decide⟩, hdigits⟩, htail⟩

/-- **A line of a remark is printed on one row.** -/
theorem newline_not_mem_remark (color : Bool) {text : List Char} (h : '\n' ∉ text) :
    '\n' ∉ (ListingLine.remark text).row color := by
  have htext : '\n' ∉ (paint color dimmed (String.ofList text)).toList :=
    not_mem_paint color (by decide) (by decide) (by rwa [String.toList_ofList])
  simp only [ListingLine.row, List.mem_append, not_or]
  exact ⟨by decide, htext⟩

/-! ### What is seen of a row -/

/-- The address and the word on a row of a listing, as they are seen: a hexadecimal number that ends in
the first six columns or later, and the sixteen characters two columns behind it. A row with six blank
columns at its beginning has no address. -/
def shownWord? (row : List Char) : Option (ℕ × List Char) :=
  let seen := visible row
  if 6 ≤ (seen.takeWhile (· == ' ')).length then none
  else
    let cells := seen.dropWhile (· == ' ')
    (Text.natural? 16 (cells.takeWhile (· != ' '))).map fun address =>
      (address, ((cells.dropWhile (· != ' ')).drop 2).take 16)

theorem visible_replicate_append (n : ℕ) (s : List Char) :
    visible (List.replicate n ' ' ++ s) = List.replicate n ' ' ++ visible s := by
  have hplain : escape ∉ List.replicate n ' ' := fun hmem =>
    absurd (List.eq_of_mem_replicate hmem) (by decide)
  rw [visible_append (closed_of_not_mem hplain), visible_of_not_mem hplain]

/-- What is seen of a remark is its text behind blanks. -/
theorem visible_remark (color : Bool) (text : List Char) :
    visible ((ListingLine.remark text).row color) = List.replicate 26 ' ' ++ visible text := by
  rw [ListingLine.row, visible_replicate_append, visible_paint color (by decide), String.toList_ofList]

/-- **A remark has no address.** -/
theorem shownWord?_remark (color : Bool) (text : List Char) :
    shownWord? ((ListingLine.remark text).row color) = none := by
  have hblank : 6 ≤ ((List.replicate 26 ' ' ++ visible text).takeWhile (· == ' ')).length := by
    rw [List.takeWhile_append_of_pos (by simp), List.length_append, List.length_replicate]
    omega
  unfold shownWord?
  rw [visible_remark]
  exact if_pos hblank

/-- What is seen of the line of a word: blanks, the address, and the word behind two blanks. -/
theorem visible_word (color : Bool) (address : ℕ) {digits : List Char} (hb : Binary digits)
    (hlen : digits.length = 16) (source : Option String) :
    ∃ blanks rest, blanks ≤ 2 ∧ visible ((ListingLine.word address digits source).row color) =
      List.replicate blanks ' ' ++ ((hexAddress address).toList ++ ' ' :: ' ' :: (digits ++ rest)) := by
  have hhex : escape ∉ (hexAddress address).toList := not_mem_hexAddress address (by decide)
  have hpad : (Console.padLeft 6 (hexAddress address)).toList =
      List.replicate (6 - (hexAddress address).toList.length) ' ' ++ (hexAddress address).toList := by
    rw [Console.padLeft, String.toList_ofList, List.leftpad]
  have hdigits : digits.leftpad 16 ' ' = digits := by
    rw [List.leftpad, hlen, Nat.sub_self, List.replicate_zero, List.nil_append]
  have hplain : escape ∉ [' ', ' '] ++ digits := by
    intro hmem
    rcases List.mem_append.1 hmem with hmem | hmem
    · exact absurd hmem (by decide)
    · exact hb.not_mem (by decide) hmem
  have hcell : Closed (paint color cyan (Console.padLeft 6 (hexAddress address))).toList :=
    closed_paint color cyan (closed_padLeft 6 (closed_of_not_mem hhex))
  -- the sequences of the first cell are closed in it, and what follows is read from the beginning
  have hlength := length_hexAddress address
  refine ⟨6 - (hexAddress address).toList.length, visible (source.elim [] fun s => [' ', ' '] ++ s.toList),
    by omega, ?_⟩
  rw [ListingLine.row, hdigits, List.append_assoc, List.append_assoc, visible_append hcell,
    visible_paint color (by decide), hpad, visible_replicate_append, visible_of_not_mem hhex,
    ← List.append_assoc [' ', ' '], visible_append (closed_of_not_mem hplain), visible_of_not_mem hplain,
    List.append_assoc]
  rfl

/-- **The line of a word has its address and its digits.** -/
theorem shownWord?_word (color : Bool) (address : ℕ) {digits : List Char} (hb : Binary digits)
    (hlen : digits.length = 16) (source : Option String) :
    shownWord? ((ListingLine.word address digits source).row color) = some (address, digits) := by
  obtain ⟨blanks, rest, hblanks, hseen⟩ := visible_word color address hb hlen source
  have hread := (Literal.natural?_eq_some le_rfl).2 (numeral_hexAddress address)
  have hspace : ' ' ∉ (hexAddress address).toList := not_mem_hexAddress address (by decide)
  obtain ⟨c, hex, hhex⟩ := List.exists_cons_of_ne_nil (numeral_hexAddress address).1
  rw [hhex] at hseen hread hspace
  have hc : (c == ' ') = false := by
    rw [List.mem_cons, not_or] at hspace
    simpa using Ne.symm hspace.1
  have hall : ∀ x ∈ List.replicate blanks ' ', (x == ' ') = true := by simp
  -- the blanks in front end at the first digit, and the digits at the next blank
  have hfront : (visible ((ListingLine.word address digits source).row color)).takeWhile (· == ' ') =
      List.replicate blanks ' ' := by
    rw [hseen, List.takeWhile_append_of_pos hall, List.cons_append, List.takeWhile_cons_of_neg (by simp [hc]),
      List.append_nil]
  have hcells : (visible ((ListingLine.word address digits source).row color)).dropWhile (· == ' ') =
      (c :: hex) ++ ' ' :: ' ' :: (digits ++ rest) := by
    rw [hseen, List.dropWhile_append_of_pos hall, List.cons_append, List.dropWhile_cons_of_neg (by simp [hc])]
  have hword : ((' ' :: ' ' :: (digits ++ rest)).drop 2).take 16 = digits := List.take_left' hlen
  unfold shownWord?
  simp only
  rw [hfront, List.length_replicate, if_neg (by omega), hcells, Text.takeWhile_bne hspace,
    Text.dropWhile_bne hspace, hread, hword]
  rfl

/-! ### The rows of a program -/

/-- The rows that are printed for an instruction. -/
def Instruction.listedRows (color : Bool) (code : List Char) (i : Instruction Op) : List (List Char) :=
  (i.shownLines code).map (ListingLine.row color)

/-- What is seen of the rows of a remark are the lines of its text, behind blanks. -/
theorem map_visible_listedRows (color : Bool) (code : List Char) {i : Instruction Op} (hb : i.body.isRemark = true) :
    (i.listedRows color code).map visible =
      (Text.lines i.source.toList).map (List.replicate 26 ' ' ++ visible ·) := by
  unfold Instruction.listedRows Instruction.shownLines
  rw [if_pos hb, List.map_map, List.map_map]
  exact List.map_congr_left fun line _ => visible_remark color line

theorem shownWord?_listedRows (color : Bool) (code : List Char) {i : Instruction Op} (hb : i.body.isRemark = true) :
    ∀ row ∈ i.listedRows color code, shownWord? row = none := by
  unfold Instruction.listedRows Instruction.shownLines
  rw [if_pos hb, List.map_map]
  intro row hrow
  obtain ⟨line, -, rfl⟩ := List.mem_map.1 hrow
  exact shownWord?_remark color line

theorem Console.textOf_foldl_write (d e : Destination) (texts : List String) (c : Console) :
    ((texts.foldl (·.write d ·) c).textOf e).toList =
      (c.textOf e).toList ++ if d = e then texts.flatMap String.toList else [] := by
  induction texts generalizing c with
  | nil => simp
  | cons text texts ih =>
    rw [List.foldl_cons, ih, Console.textOf_write]
    by_cases h : d = e <;> simp [h]

section

variable {source : String} {p : List (Instruction Armlet.Op)} {code : List Char}

/-- What is printed for a source are the lines of its program. -/
theorem execute_list (hp : parse source.toList true = .ok p) {lines : List ListingLine}
    (hlines : listing p = .ok lines) {name : String} {env : Environment}
    (hread : env.folder.read name = .ok source.toUTF8) (fuel : ℕ) :
    ∃ r, (Command.list name).execute fuel env = some r ∧ r.exit = 0 ∧ r.failure = none ∧ r.stderr = "" ∧
      r.stdout.toList = lines.flatMap fun l => l.row env.color ++ ['\n'] := by
  have hlist : listSource (.ok source.toUTF8) { color := env.color } =
      (.ok (), (lines.map (·.text env.color)).foldl (·.write .output ·) { color := env.color }) := by
    unfold listSource
    rw [programOfBytes_toUTF8 hp]
    simp only [bind, Except.bind, hlines, Except.mapError]
  have hwritten := fun d =>
    Console.textOf_foldl_write .output d (lines.map (·.text env.color)) { color := env.color }
  have hnone : ∀ d, ({ color := env.color } : Console).textOf d = "" := fun d => by simp [Console.textOf]
  generalize (lines.map (·.text env.color)).foldl (·.write .output ·) ({ color := env.color } : Console) = c
    at hlist hwritten
  refine ⟨{ stdout := c.stdout, stderr := c.stderr, folder := env.folder }, ?_, rfl, rfl, ?_, ?_⟩
  · simp only [Command.execute, hread, hlist]
    rfl
  · have hstderr := hwritten .diagnostics
    rw [hnone, if_neg (by decide)] at hstderr
    exact String.toList_eq_nil_iff.1 hstderr
  · have hstdout := hwritten .output
    rw [hnone, if_pos rfl, List.flatMap_map] at hstdout
    simp only [ListingLine.text_eq] at hstdout
    exact hstdout

section

variable (hp : parse source.toList true = .ok p) (hcode : machineCode p = .ok code)

include hp hcode

theorem newline_not_mem_listedRows (color : Bool) {i : Instruction Armlet.Op} (hi : i ∈ p) :
    ∀ row ∈ i.listedRows color code, '\n' ∉ row := by
  obtain ⟨hbinary, -⟩ := machineCode_spec hcode
  unfold Instruction.listedRows Instruction.shownLines
  cases hb : i.body.isRemark with
  | true =>
    rw [if_pos rfl, List.map_map, List.forall_mem_map]
    exact fun line hline => newline_not_mem_remark color (Text.not_mem_of_mem_lines hline)
  | false =>
    obtain ⟨-, hsource⟩ := (readable_of_parse hp).printable.written hi hb
    rw [if_neg Bool.false_ne_true, List.map_map, List.forall_mem_map]
    intro k _
    refine newline_not_mem_word color _ (hbinary.wordAt _) fun s hs => ?_
    obtain ⟨-, hshown⟩ := Option.ite_none_right_eq_some.1 hs
    rwa [← Option.some.inj hshown]

/-- The line of a word of an instruction shows the address and the word. -/
theorem shownWord?_of_parse (color : Bool) {i : Instruction Armlet.Op} (hi : i ∈ p) {k : ℕ} (hk : k < i.wordCount)
    (shown : Option String) :
    shownWord? ((ListingLine.word (i.address.getD 0 + k) (wordAt Armlet.Op code (i.address.getD 0 + k))
      shown).row color) = some (i.address.getD 0 + k, wordAt Armlet.Op code (i.address.getD 0 + k)) := by
  obtain ⟨hbinary, hlen⟩ := machineCode_spec hcode
  obtain ⟨a, ha, -, hend⟩ := code_of_parse hp hcode hi
  rw [ha]
  exact shownWord?_word color _ (hbinary.wordAt _) (length_wordAt hlen (by simp only [Option.getD_some]; omega)) shown

/-- **What is seen of the rows of an instruction** are its words, and nothing of a remark. -/
theorem filterMap_listedRows (color : Bool) {i : Instruction Armlet.Op} (hi : i ∈ p) :
    (i.listedRows color code).filterMap shownWord? = (List.range i.wordCount).map fun k =>
      (i.address.getD 0 + k, wordAt Armlet.Op code (i.address.getD 0 + k)) := by
  cases hb : i.body.isRemark with
  | true =>
    have hcount : i.wordCount = 0 := by
      unfold Instruction.wordCount
      rw [Body.isRemark_iff.1 hb]
      rfl
    rw [hcount]
    exact List.filterMap_eq_nil_iff.2 (shownWord?_listedRows color code hb)
  | false =>
    unfold Instruction.listedRows Instruction.shownLines
    rw [hb, if_neg Bool.false_ne_true, List.map_map, List.filterMap_map, ← List.filterMap_eq_map]
    refine List.filterMap_congr fun k hk => ?_
    simp only [Function.comp_apply]
    exact shownWord?_of_parse hp hcode color hi (List.mem_range.1 hk) _

/-- **All words of a program** are seen on its rows, in order. -/
theorem filterMap_rows (color : Bool) : (p.flatMap (Instruction.listedRows color code)).filterMap shownWord? =
    (List.range (totalWords p)).map fun k => (k, wordAt Armlet.Op code k) := by
  -- a program that was read is the placed one from zero on
  have hplaced := (readable_of_parse hp).placed
  have hrows : (p.flatMap fun i => (i.listedRows color code).filterMap shownWord?) =
      p.flatMap fun i => (List.range i.wordCount).map fun k =>
        (i.address.getD 0 + k, wordAt Armlet.Op code (i.address.getD 0 + k)) :=
    List.flatMap_congr fun i hi => filterMap_listedRows hp hcode color hi
  have hwords := flatMap_words (fun k => (k, wordAt Armlet.Op code k)) 0 p
  rw [hplaced] at hwords
  rw [List.filterMap_flatMap, hrows, hwords]
  simp only [Nat.zero_add]

/-- **The rows of an instruction**: the source stands on the first one, and the others end with their word. -/
theorem listedRows_of_parse (color : Bool) {i : Instruction Armlet.Op} (hi : i ∈ p) (hb : i.body.isRemark = false) :
    ∃ a first rest, i.address = some a ∧ i.listedRows color code = first :: rest ∧
      shownWord? first = some (a, wordAt Armlet.Op code a) ∧ [' ', ' '] ++ i.source.toList <:+ first ∧
      ∀ row ∈ rest, ∃ k, shownWord? row = some (k, wordAt Armlet.Op code k) ∧ wordAt Armlet.Op code k <:+ row := by
  obtain ⟨hwritten, -⟩ := (readable_of_parse hp).printable.written hi hb
  obtain ⟨a, ha, -, -⟩ := code_of_parse hp hcode hi
  have hshown := fun k (hk : k < i.wordCount) => shownWord?_of_parse hp hcode color hi hk
  obtain ⟨n, hn⟩ := Nat.exists_eq_succ_of_ne_zero hwritten.wordCount_pos.ne'
  unfold Instruction.listedRows Instruction.shownLines
  rw [hn] at hshown
  rw [hb, if_neg Bool.false_ne_true, hn, Nat.succ_eq_add_one, List.range_succ_eq_map, List.map_cons, List.map_cons,
    List.map_map, List.map_map]
  rw [ha] at hshown ⊢
  refine ⟨a, _, _, rfl, rfl, hshown 0 n.succ_pos _, ?_, ?_⟩
  · exact List.suffix_append _ _
  · intro row hrow
    obtain ⟨k, hk, rfl⟩ := List.mem_map.1 hrow
    refine ⟨a + (k + 1), hshown (k + 1) (Nat.succ_lt_succ (List.mem_range.1 hk)) none, ?_⟩
    change _ <:+ _ ++ (wordAt Armlet.Op code (a + (k + 1))).leftpad 16 ' ' ++ []
    rw [List.append_nil, List.leftpad, ← List.append_assoc]
    exact List.suffix_append _ _

end

end

/-- **A listing shows the memory image.** A source that parses has its digits, and listing it succeeds,
with styles on or off. Its output are the rows of the instructions, each ended by a newline.

* The rows on which an address is seen have, in order, the addresses from zero up to the number of words,
  each once, with the word of the digits at this place.
* An instruction or a row of data begins with a row that has its address and its first word and ends with
  its source; its other rows end with their word.
* A remark, be it a comment or the labels at the end, has no row with an address: what is seen of its rows
  are the lines of its text behind blanks, so that a comment without any text has none. -/
theorem listing_shows_image {source : String} {p : List (Instruction Armlet.Op)}
    (hp : parse source.toList true = .ok p) :
    ∃ code, machineCode p = .ok code ∧ code.length = totalWords p * wordSize Armlet.Op ∧
    ∀ name env fuel, env.folder.read name = .ok source.toUTF8 →
      ∃ r, (Command.list name).execute fuel env = some r ∧ r.exit = 0 ∧ r.failure = none ∧ r.stderr = "" ∧
        Text.rows r.stdout.toList = p.flatMap (Instruction.listedRows env.color code) ++ [[]] ∧
        (Text.rows r.stdout.toList).filterMap shownWord? =
          (List.range (totalWords p)).map (fun k => (k, wordAt Armlet.Op code k)) ∧
        ∀ i ∈ p,
          (i.body.isRemark = false → ∃ a first rest, i.address = some a ∧
            i.listedRows env.color code = first :: rest ∧
            shownWord? first = some (a, wordAt Armlet.Op code a) ∧ [' ', ' '] ++ i.source.toList <:+ first ∧
            ∀ row ∈ rest, ∃ k, shownWord? row = some (k, wordAt Armlet.Op code k) ∧
              wordAt Armlet.Op code k <:+ row) ∧
          (i.body.isRemark = true → (∀ row ∈ i.listedRows env.color code, shownWord? row = none) ∧
            (i.listedRows env.color code).map visible =
              (Text.lines i.source.toList).map (List.replicate 26 ' ' ++ visible ·)) := by
  obtain ⟨code, hcode⟩ := machineCode_of_sound fun i => sound_of_parse hp
  refine ⟨code, hcode, (machineCode_spec hcode).2, fun name env fuel hread => ?_⟩
  obtain ⟨r, hr, hexit, hfailure, hstderr, hstdout⟩ := execute_list hp (listing_of_parse hp hcode) hread fuel
  have hrows : Text.rows r.stdout.toList = p.flatMap (Instruction.listedRows env.color code) ++ [[]] := by
    have hfree : ∀ row ∈ p.flatMap (Instruction.listedRows env.color code), '\n' ∉ row := by
      intro row hrow
      obtain ⟨i, hi, hrow⟩ := List.mem_flatMap.1 hrow
      exact newline_not_mem_listedRows hp hcode env.color hi row hrow
    rw [hstdout, ← Text.rows_ended hfree, List.flatMap_assoc, List.flatMap_assoc]
    simp only [Instruction.listedRows, List.flatMap_map]
  refine ⟨r, hr, hexit, hfailure, hstderr, hrows, ?_, fun i hi => ⟨?_, fun hb => ⟨?_, ?_⟩⟩⟩
  · rw [hrows, List.filterMap_append, filterMap_rows hp hcode]
    exact List.append_nil _
  · exact listedRows_of_parse hp hcode env.color hi
  · exact shownWord?_listedRows env.color code hb
  · exact map_visible_listedRows env.color code hb

/-- A comment, an instruction of two words, a row of data with a reference, and a label at the end. -/
theorem parse_comment_data_label : parse "# go\na: mov $1, 300\n.data -2, >e # d\ne:".toList true =
    (.ok [{ body := .remark, comment := some "go", line := 2, address := some 0 },
      { body := .operation (.mov .immediate) ["$1", "300"], labels := [⟨"a", 2⟩], line := 2, address := some 0 },
      { body := .data ["-2", "4"], comment := some "d", line := 3, address := some 2 },
      { body := .remark, labels := [⟨"e", 4⟩], line := 4, address := some 4 }] :
      Except ParseError (List (Instruction Armlet.Op))) := by
  let lines : List SourceLine := [⟨1, [], [], some "go"⟩, ⟨2, [⟨"a", 2⟩], "mov $1, 300".toList, none⟩,
    ⟨3, [], ".data -2, >e".toList, some "d"⟩, ⟨4, [⟨"e", 4⟩], [], none⟩]
  let data : Instruction Armlet.Op := { body := .data ["-2", ">e"], comment := some "d", line := 3 }
  have hlines : (SourceRow.ofSource "# go\na: mov $1, 300\n.data -2, >e # d\ne:".toList).mapM
      (SourceLine.ofRow Armlet.dialect) = .ok lines := by cbv
  have hprogram : (Outline.ofLines lines).program 4 = .ok [{ body := .remark, comment := some "go", line := 2 },
      { body := .operation (.mov .immediate) ["$1", "300"], labels := [⟨"a", 2⟩], line := 2 }, data,
      { body := .remark, labels := [⟨"e", 4⟩], line := 4 }] := by decide +kernel
  -- the second pass looks up the one reference
  obtain ⟨table, htable⟩ : ∃ table, labelTable [(⟨"a", 2⟩, 0), (⟨"e", 4⟩, 4)] = .ok table := ⟨_, by cbv⟩
  have hend : table.get? (Dialect.referent ">e") = some 4 :=
    (labelTable_eq_ok htable "e" 4).2 ⟨⟨"e", 4⟩, by simp, rfl⟩
  have hreference : Instruction.resolveArg table.get? { data with address := some 2 } ">e" = .ok "4" := by
    unfold Instruction.resolveArg
    rw [if_pos (by decide)]
    simp only [hend]
    rfl
  refine parse_true.2 ⟨_, table, parseRows_eq_ok.2 ⟨lines, _, hlines, hprogram, htable, rfl⟩, ?_⟩
  refine mapM_eq_ok.2 (.cons rfl (.cons rfl (.cons ?_ (.cons rfl .nil))))
  exact bind_eq_ok.2 ⟨["-2", "4"], mapM_eq_ok.2 (.cons rfl (.cons hreference .nil)), by decide +kernel⟩

/-- Its listing in colour, as it is seen. -/
theorem listing_shows_image_color : ∃ (p : List (Instruction Armlet.Op)) (env : Environment),
    parse "# go\na: mov $1, 300\n.data -2, >e # d\ne:".toList true = .ok p ∧
    env.color = true ∧ env.folder.read "a.asm" = .ok "# go\na: mov $1, 300\n.data -2, >e # d\ne:".toUTF8 ∧
    ∀ fuel, ∃ r, (Command.list "a.asm").execute fuel env = some r ∧
      (Text.rows r.stdout.toList).map (fun row => String.ofList (visible row)) = [
        "                          # go",
        "  0000  0101000010000000  a: mov $1, 300",
        "  0001  0000000100101100",
        "  0002  1111111111111110  .data -2, 4 # d",
        "  0003  0000000000000100",
        "                          e:",
        ""] := by
  let env : Environment :=
    { folder := ⟨[("a.asm", "# go\na: mov $1, 300\n.data -2, >e # d\ne:".toUTF8)]⟩, color := true }
  have hread : env.folder.read "a.asm" = .ok "# go\na: mov $1, 300\n.data -2, >e # d\ne:".toUTF8 := by decide
  obtain ⟨code, hcode, -, hlist⟩ := listing_shows_image parse_comment_data_label
  have hdigits : code = "0101000010000000000000010010110011111111111111100000000000000100".toList := by
    refine Except.ok.inj (hcode.symm.trans ?_)
    decide +kernel
  refine ⟨_, env, parse_comment_data_label, rfl, hread, fun fuel => ?_⟩
  obtain ⟨r, hr, -, -, -, hrows, -⟩ := hlist "a.asm" env fuel hread
  refine ⟨r, hr, ?_⟩
  rw [hrows, hdigits]
  decide +kernel

end TinyIsa
